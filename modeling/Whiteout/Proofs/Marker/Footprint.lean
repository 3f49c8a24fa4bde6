import Whiteout.Proofs.FileSystem.Additions
import Whiteout.Proofs.Marker.Growth

/-!
# The footprint of a hide

Without links the places of a metadata tree are read off the names below the metadata directory.
Whatever a hide answers, it adds nothing but directories on the way to the marker and the marker
itself, and it adds nothing at all unless the branch root is there. After a success an entry of the
kind asked for stands at the marker's place.
-/

namespace Whiteout

open Whiteout.FileSystem (AddsOnly Descends Walks startOf)
open Whiteout.Path (components IsStep IsComponent endsWithSeparator)
open Whiteout.Marker (slashed)

namespace FileSystem

variable [Host] {fs after : FileSystem} {path : Bytes} {mode : Nat} {made : Bool} {kind : Kind}

theorem placeMarker_dir_ok (h : fs.placeMarker path .dir = .ok after) :
    ∃ made, fs.ensureDirWith path dirMarkerMode = .ok (made, after) := by
  simp only [placeMarker] at h
  cases hensure : fs.ensureDirWith path dirMarkerMode with
  | error e => rw [hensure] at h; cases h
  | ok done => rw [hensure] at h; cases h; exact ⟨done.1, rfl⟩

section

variable (hfree : fs.tree.LinkFree)
include hfree

theorem ensureDirWith_adds (h : fs.ensureDirWith path mode = .ok (made, after)) :
    AddsOnly (fun l e => l = fs.placeOf path ∧ e = .dir (Host.granted mode)) fs after := by
  rcases ensureDirWith_ok h with hmade | ⟨rfl, -⟩
  · exact makeDir_adds hfree hmade
  · exact .refl _

theorem ensureDirWith_dir (h : fs.ensureDirWith path mode = .ok (made, after)) :
    ∃ e, after.tree.get? (fs.placeOf path) = some e ∧ e.kind = .dir := by
  rcases ensureDirWith_ok h with hmade | ⟨rfl, hdir⟩
  · obtain ⟨place, hresolve, -, -, hget⟩ := makeDir_ok hmade
    have hplace : place = fs.placeOf path := resolveNew_place hfree hresolve
    exact ⟨.dir (Host.granted mode), by rw [hget, if_pos hplace], rfl⟩
  · exact get?_placeOf_of_probe hfree hdir

theorem placeMarker_adds (h : fs.placeMarker path kind = .ok after) :
    AddsOnly (fun l e => l = fs.placeOf path ∧ e.kind = kind ∧ e.isLink = false) fs after := by
  cases kind with
  | file =>
    refine (createFile_adds hfree h).weaken fun l e hadded => ?_
    rcases hadded with ⟨hplace, rfl⟩
    exact ⟨hplace, rfl, rfl⟩
  | dir =>
    obtain ⟨made, hensure⟩ := placeMarker_dir_ok h
    refine (ensureDirWith_adds hfree hensure).weaken fun l e hadded => ?_
    rcases hadded with ⟨hplace, rfl⟩
    exact ⟨hplace, rfl, rfl⟩

theorem placeMarker_kind (h : fs.placeMarker path kind = .ok after) :
    ∃ e, after.tree.get? (fs.placeOf path) = some e ∧ e.kind = kind := by
  cases kind with
  | file =>
    obtain ⟨place, hopen⟩ := createFile_ok h
    obtain ⟨hresolve, hfile⟩ := openFile_ok hopen
    have hplace : place = fs.placeOf path := resolve_place hfree hresolve
    rcases hfile with ⟨⟨m, content, hget⟩, rfl⟩ | ⟨-, -, hget⟩
    · exact ⟨_, hplace ▸ hget, rfl⟩
    · exact ⟨.file (Host.granted fileMarkerMode) [], by rw [hget, if_pos hplace], rfl⟩
  | dir =>
    obtain ⟨made, hensure⟩ := placeMarker_dir_ok h
    exact ensureDirWith_dir hfree hensure

theorem descends_of_ensureDirWith (h : fs.ensureDirWith path mode = .ok (made, after))
    (hend : endsWithSeparator path = false) {front : List Name} {last : Name}
    (hpath : components path = front ++ [last]) :
    Descends fs.tree (startOf fs.cwd path) front ((startOf fs.cwd path).along front) := by
  obtain ⟨spot, hwalk⟩ : ∃ spot,
      Walks fs.tree .keepLink maxLinks (startOf fs.cwd path) (front ++ [last]) spot := by
    rcases ensureDirWith_ok h with hmade | ⟨-, hdir⟩
    · obtain ⟨place, hresolve, -⟩ := makeDir_ok hmade
      exact ⟨_, hpath ▸ (resolveHops_eq_ok_iff.1 hresolve).2⟩
    · obtain ⟨place, mode, he⟩ := probe_eq_dir_iff.1 hdir
      obtain ⟨spot, hresolve, -⟩ := entryAt_eq_ok_iff.1 he
      have hwalk := (resolve_eq_ok_iff.1 hresolve).2
      rw [hops_of_not_endsWithSeparator hend, hpath] at hwalk
      exact ⟨spot, hwalk⟩
  exact .of_walks_front hfree (by simp) hwalk

end

end FileSystem

namespace UnionView

variable {view : UnionView} {fs : FileSystem} {b : Branch} {rank : Nat} {names parts : List Name}

def metaPlace (view : UnionView) (fs : FileSystem) (b : Branch) : Location :=
  fs.placeOf (view.metaText b)

def markerNames (view : UnionView) (parts : List Name) : List Name :=
  parts.dropLast ++ [parts.getLastD [] ++ view.hideTag]

theorem markerNames_concat (view : UnionView) (front : List Name) (last : Name) :
    view.markerNames (front ++ [last]) = front ++ [last ++ view.hideTag] := by
  simp [markerNames]

theorem markerNames_injective {other : List Name} (hne : parts ≠ []) (hne' : other ≠ [])
    (h : view.markerNames parts = view.markerNames other) : parts = other := by
  obtain ⟨front, last, rfl⟩ := Location.exists_concat hne
  obtain ⟨front', last', rfl⟩ := Location.exists_concat hne'
  rw [markerNames_concat, markerNames_concat] at h
  obtain ⟨rfl, hlast⟩ := List.append_inj' h rfl
  rw [List.append_cancel_right (List.singleton_inj.1 hlast)]

theorem markerText_eq (view : UnionView) (b : Branch) (hne : parts ≠ []) :
    view.markerText b parts = view.metaText b ++ slashed (view.markerNames parts) := by
  obtain ⟨front, last, rfl⟩ := Location.exists_concat hne
  rw [markerText_concat, markerNames_concat]

theorem components_markerText_eq (hv : view.Accepted) (b : Branch) (hne : parts ≠ [])
    (hsteps : ∀ c ∈ parts, IsStep c) : components (view.markerText b parts) =
      components b.root ++ [view.metaDir] ++ view.markerNames parts := by
  obtain ⟨front, last, rfl⟩ := Location.exists_concat hne
  rw [components_markerText hv b hsteps, markerNames_concat, List.append_assoc _ front]

theorem isStep_of_mem_markerNames (hv : view.Accepted) (hne : parts ≠ [])
    (hsteps : ∀ c ∈ parts, IsStep c) : ∀ n ∈ view.markerNames parts, IsStep n := by
  obtain ⟨front, last, rfl⟩ := Location.exists_concat hne
  intro n hn
  rw [markerNames_concat] at hn
  rcases List.mem_append.1 hn with hn | hn
  · exact hsteps n (List.mem_append_left _ hn)
  · rw [List.mem_singleton.1 hn]
    exact (hsteps last (by simp)).append hv.hideTag

theorem endsWithSeparator_mirrored (hv : view.Accepted) (b : Branch)
    (hnames : ∀ n ∈ names, IsComponent n) :
    endsWithSeparator (view.metaText b ++ slashed names) = false := by
  by_cases hnil : names = []
  · simpa [hnil, slashed] using endsWithSeparator_metaText hv b
  · exact Path.endsWithSeparator_slashed _ hnil hnames

theorem metaPlace_congr {other : FileSystem} (hcwd : other.cwd = fs.cwd) (b : Branch) :
    view.metaPlace other b = view.metaPlace fs b := by
  rw [metaPlace, metaPlace, FileSystem.placeOf, FileSystem.placeOf, hcwd]

theorem metaPlace_of_grows {after : FileSystem} (h : FileSystem.Grows fs after) (b : Branch) :
    view.metaPlace after b = view.metaPlace fs b :=
  metaPlace_congr h.1 b

section

variable (hv : view.Accepted) (hb : view.branches[rank]? = some b)
include hv hb

theorem startOf_metaText (here : Location) (rest : Bytes) :
    startOf here (view.metaText b ++ rest) = startOf here b.root := by
  rw [startOf, startOf, Path.isAbsolute_append (metaText_ne_nil hv hb), metaText,
    BoundedPath.isAbsolute_joined (hv.rooted b (List.mem_of_getElem? hb))]

theorem metaPlace_eq (fs : FileSystem) :
    view.metaPlace fs b = (fs.placeOf b.root).along [view.metaDir] := by
  have hstart := startOf_metaText hv hb fs.cwd []
  rw [List.append_nil] at hstart
  rw [metaPlace, FileSystem.placeOf, FileSystem.placeOf, hstart, components_metaText hv,
    Location.along_append]

theorem placeOf_metaText_slashed (fs : FileSystem) (hnames : ∀ n ∈ names, IsStep n) :
    fs.placeOf (view.metaText b ++ slashed names) = view.metaPlace fs b ++ names := by
  have hcomps : ∀ n ∈ names, IsComponent n := fun n hn => (hnames n hn).isComponent
  rw [FileSystem.placeOf, Path.components_append_slashed hcomps, components_metaText hv,
    startOf_metaText hv hb, Location.along_append, Location.along_append, ← FileSystem.placeOf,
    ← metaPlace_eq hv hb, Location.along_of_proper fun n hn => (hnames n hn).1]

theorem placeOf_markerText (fs : FileSystem) (hne : parts ≠ []) (hsteps : ∀ c ∈ parts, IsStep c) :
    fs.placeOf (view.markerText b parts) = view.metaPlace fs b ++ view.markerNames parts := by
  rw [markerText_eq view b hne,
    placeOf_metaText_slashed hv hb fs (isStep_of_mem_markerNames hv hne hsteps)]

end

end UnionView

variable [Host]

def IsMirrored (base : Location) (dirs : List Name) (l : Location) (e : Entry) : Prop :=
  ∃ names, names <+: dirs ∧ l = base ++ names ∧ e = .dir (Host.granted metaDirMode)

theorem IsMirrored.not_isLink {base l : Location} {dirs : List Name} {e : Entry}
    (h : IsMirrored base dirs l e) : e.isLink = false := by
  obtain ⟨names, -, -, rfl⟩ := h
  rfl

namespace Session

variable {view : UnionView} {s : Session} {rank : Nat} {b : Branch} {base : Location}
  {done rest dirs : List Name} (hv : view.Accepted) (hb : view.branches[rank]? = some b)
  (hsteps : ∀ c ∈ dirs, IsStep c)
include hv hb hsteps

theorem ensureMetaDir_adds (hfree : s.fs.tree.LinkFree) (hbase : view.metaPlace s.fs b = base)
    (hdone : done <+: dirs) :
    AddsOnly (IsMirrored base dirs) s.fs
      (s.ensureMetaDir (view.metaText b ++ slashed done)).2.fs := by
  have hplace : s.fs.placeOf (view.metaText b ++ slashed done) = base ++ done := by
    rw [UnionView.placeOf_metaText_slashed hv hb s.fs fun c hc => hsteps c (hdone.subset hc), hbase]
  rcases s.ensureMetaDir_cases (view.metaText b ++ slashed done) with
    ⟨fs, hmade, hrun⟩ | ⟨-, hrun⟩ | ⟨fault, hrun⟩
  · have hadds := FileSystem.makeDir_adds hfree hmade
    rw [hplace] at hadds
    rw [hrun]
    exact hadds.weaken fun l e hadded => ⟨done, hdone, hadded⟩
  · rw [hrun]
    exact .refl _
  · rw [hrun]
    exact .refl _

theorem ensureMetaDirs_adds (hfree : s.fs.tree.LinkFree) (hbase : view.metaPlace s.fs b = base)
    (hsplit : done ++ rest = dirs) (limit : Nat) :
    AddsOnly (IsMirrored base dirs) s.fs
      (s.ensureMetaDirs ⟨view.metaText b ++ slashed done, limit⟩ rest).2.fs := by
  -- the directories for `done` come before, those for `rest` are still to follow
  induction rest generalizing s done with
  | nil => exact s.ensureMetaDir_adds hv hb hsteps hfree hbase ⟨[], hsplit⟩
  | cons component below ih =>
    have hdone : done <+: dirs := ⟨_, hsplit⟩
    have hstep := s.ensureMetaDir_adds hv hb hsteps hfree hbase hdone
    rw [ensureMetaDirs]
    split
    · next hmade => rw [hmade] at hstep; exact hstep
    · next made hmade =>
      rw [hmade] at hstep
      split
      · exact hstep
      · next next hpush =>
        have hend : endsWithSeparator (view.metaText b ++ slashed done) = false :=
          view.endsWithSeparator_mirrored hv b fun c hc => (hsteps c (hdone.subset hc)).isComponent
        have hcomp : IsComponent component := (hsteps component (hsplit ▸ by simp)).isComponent
        rw [BoundedPath.pushSegment_of_isComponent (by simp [UnionView.metaText_ne_nil hv hb]) hend
          hcomp] at hpush
        obtain ⟨-, rfl⟩ := BoundedPath.extendTo_eq_ok_iff.1 hpush
        have hsplit' : done ++ [component] ++ below = dirs := by simpa using hsplit
        have hrest := ih (hstep.linkFree hfree fun l e hadded => hadded.not_isLink)
          ((UnionView.metaPlace_of_grows hstep.grows b).trans hbase) hsplit'
        rw [Path.slashed_append, ← List.append_assoc] at hrest
        exact hstep.trans hrest

omit hv hb hsteps in
theorem ensureMetaDirs_first (s : Session) (dir : BoundedPath) (below : List Name) :
    (∃ fault, s.ensureMetaDirs dir below = (.error (.io fault), s)) ∨
      ∃ made, s.fs.ensureDirWith dir.text metaDirMode = .ok made := by
  cases hensure : s.fs.ensureDirWith dir.text metaDirMode with
  | ok made => exact .inr ⟨made, rfl⟩
  | error fault =>
    have hfirst : s.ensureMetaDir dir.text = (.error (.io fault), s) := by
      rw [ensureMetaDir, hensure]
    refine .inl ⟨fault, ?_⟩
    cases below with
    | nil => exact hfirst
    | cons component below => rw [ensureMetaDirs, hfirst]

end Session

namespace UnionView

variable {view : UnionView} {s : Session} {path : Bytes} {rank : Nat} {kind : Kind}

/-- What hiding some components may add below a metadata directory. -/
def Footprint (view : UnionView) (base : Location) (parts : List Name) (kind : Kind) (l : Location)
    (e : Entry) : Prop :=
  IsMirrored base parts.dropLast l e ∨
    l = base ++ view.markerNames parts ∧ e.kind = kind ∧ e.isLink = false

theorem Footprint.not_isLink {base l : Location} {parts : List Name} {e : Entry}
    (h : view.Footprint base parts kind l e) : e.isLink = false :=
  h.elim (fun hmirrored => hmirrored.not_isLink) fun hmarker => hmarker.2.2

theorem Footprint.base_prefix {base l : Location} {parts : List Name} {e : Entry}
    (h : view.Footprint base parts kind l e) : base <+: l := by
  rcases h with ⟨names, -, rfl, -⟩ | ⟨rfl, -⟩
  · exact List.prefix_append _ _
  · exact List.prefix_append _ _

theorem hide_of_no_marker (h : ∀ m, view.markerPath path rank ≠ .ok m) (kind : Kind) :
    ∃ e, ∀ s, view.hide s path rank kind = (.error e, s) := by
  cases hbranch : view.branch rank with
  | error e => exact ⟨e, fun s => by rw [hide, hbranch]⟩
  | ok b =>
    cases hmarker : view.markerPath path rank with
    | error e => exact ⟨e, fun s => by rw [hide, hbranch, hmarker]⟩
    | ok m => exact absurd hmarker (h m)

theorem hide_of_fits (hv : view.Accepted) {parts : List Name} {b : Branch}
    (hparts : unionComponents path = .ok parts) (hb : view.branches[rank]? = some b)
    (hfit : (view.markerText b parts).length + 1 ≤ view.maxPathLen) :
    view.hide s path rank kind =
      match s.ensureMetaDirs ⟨view.metaText b ++ slashed [], view.maxPathLen⟩ parts.dropLast with
      | (.error e, made) => (.error e, made)
      | (.ok (), made) => made.placeMarker (view.markerText b parts) kind := by
  have hmarker : view.markerPath path rank = .ok ⟨view.markerText b parts, view.maxPathLen⟩ :=
    (markerPath_eq_ok_iff hv).2 ⟨parts, b, hparts, hb, hfit, rfl⟩
  have hfit' : (view.metaText b).length + 1 ≤ view.maxPathLen := by
    simp only [markerText, List.length_append] at hfit
    omega
  have hroot : view.metaRoot rank = .ok ⟨view.metaText b ++ slashed [], view.maxPathLen⟩ :=
    (metaRoot_eq_ok_iff hv).2 ⟨b, hb, hfit', by simp [slashed]⟩
  have hbranch : view.branch rank = .ok b := (view.branch_ok_iff rank b).2 hb
  cases hmade : s.ensureMetaDirs ⟨view.metaText b ++ slashed [], view.maxPathLen⟩ parts.dropLast with
  | mk response made =>
    have hmirror : view.mirrorAncestors s path rank = (response, made) := by
      simp only [mirrorAncestors, hparts, hroot, hmade]
    cases response with
    | error e => simp only [hide, hbranch, hmarker, hmirror]
    | ok => simp only [hide, hbranch, hmarker, hmirror]

/-- A hide does nothing, or it ends with the directories above the marker or with the marker. -/
theorem hide_cases (hv : view.Accepted) (hfree : s.fs.tree.LinkFree) (path : Bytes) (rank : Nat)
    (kind : Kind) :
    (∃ e, view.hide s path rank kind = (.error e, s)) ∨
      ∃ parts b response made, unionComponents path = .ok parts ∧
        view.branches[rank]? = some b ∧
        s.ensureMetaDirs ⟨view.metaText b ++ slashed [], view.maxPathLen⟩ parts.dropLast =
          (response, made) ∧
        AddsOnly (IsMirrored (view.metaPlace s.fs b) parts.dropLast) s.fs made.fs ∧
        ((∃ e, view.hide s path rank kind = (.error e, made)) ∨
          response = .ok () ∧
            view.hide s path rank kind = made.placeMarker (view.markerText b parts) kind) := by
  cases hmarker : view.markerPath path rank with
  | error e =>
    have hnone (m : BoundedPath) : view.markerPath path rank ≠ .ok m := by simp [hmarker]
    obtain ⟨fault, hfault⟩ := hide_of_no_marker hnone kind
    exact .inl ⟨fault, hfault s⟩
  | ok marker =>
    obtain ⟨parts, b, hparts, hb, hfit, -⟩ := (markerPath_eq_ok_iff hv).1 hmarker
    have hsteps : ∀ c ∈ parts.dropLast, IsStep c :=
      isStep_of_mem_front hparts (List.dropLast_prefix _)
    have hadds := s.ensureMetaDirs_adds hv hb hsteps hfree rfl (List.nil_append _) view.maxPathLen
    rw [hide_of_fits hv hparts hb hfit]
    right
    split
    · next e made hmade =>
      rw [hmade] at hadds
      exact ⟨parts, b, _, made, hparts, hb, hmade, hadds, .inl ⟨e, rfl⟩⟩
    · next made hmade =>
      rw [hmade] at hadds
      exact ⟨parts, b, _, made, hparts, hb, hmade, hadds, .inr ⟨rfl, rfl⟩⟩

theorem hide_adds (hv : view.Accepted) (hfree : s.fs.tree.LinkFree) {parts : List Name} {b : Branch}
    (hparts : unionComponents path = .ok parts) (hb : view.branches[rank]? = some b) :
    AddsOnly (view.Footprint (view.metaPlace s.fs b) parts kind) s.fs
      (view.hide s path rank kind).2.fs := by
  obtain ⟨-, hne, hsteps⟩ := unionComponents_eq_ok_iff.1 hparts
  rcases hide_cases hv hfree path rank kind with ⟨e, herror⟩ |
    ⟨parts', b', response, made, hparts', hb', -, hmirror, hend⟩
  · rw [herror]
    exact .refl _
  · cases hparts.symm.trans hparts'
    cases hb.symm.trans hb'
    have hdirs : AddsOnly (view.Footprint (view.metaPlace s.fs b) parts kind) s.fs made.fs :=
      hmirror.weaken fun l e hadded => .inl hadded
    rcases hend with ⟨e, herror⟩ | ⟨-, hplace⟩
    · rw [herror]
      exact hdirs
    · rw [hplace, Session.placeMarker]
      split
      · exact hdirs
      · next fs hplaced =>
        have hfree' := hdirs.linkFree hfree fun l e hadded => hadded.not_isLink
        have hmarker := FileSystem.placeMarker_adds hfree' hplaced
        rw [placeOf_markerText hv hb made.fs hne hsteps, metaPlace_of_grows hdirs.grows] at hmarker
        exact (hdirs.trans (hmarker.weaken fun l e hadded => .inr hadded)).sameTree
          (Session.offer_sameTree _ _)

theorem hide_of_no_root (hv : view.Accepted) (hfree : s.fs.tree.LinkFree) {parts : List Name}
    {b : Branch} (hparts : unionComponents path = .ok parts) (hb : view.branches[rank]? = some b)
    (hfit : (view.markerText b parts).length + 1 ≤ view.maxPathLen)
    (hroot : ¬s.fs.LeadsDown b.root) (kind : Kind) :
    ∃ fault, view.hide s path rank kind = (.error (.io fault), s) := by
  rcases s.ensureMetaDirs_first ⟨view.metaText b ++ slashed [], view.maxPathLen⟩
    parts.dropLast with ⟨fault, herror⟩ | ⟨⟨flag, after⟩, hensure⟩
  · exact ⟨fault, by rw [hide_of_fits hv hparts hb hfit, herror]⟩
  · have htext : view.metaText b ++ slashed [] = view.metaText b := by simp [slashed]
    have hdown := FileSystem.descends_of_ensureDirWith hfree hensure
      (view.endsWithSeparator_mirrored hv b (by simp))
      ((congrArg components htext).trans (components_metaText hv b))
    rw [startOf_metaText hv hb] at hdown
    exact absurd hdown hroot

theorem root_descends_of_hide (hv : view.Accepted) (hfree : s.fs.tree.LinkFree) {b : Branch}
    (hb : view.branches[rank]? = some b) :
    (view.hide s path rank kind).2.fs = s.fs ∨ s.fs.LeadsDown b.root := by
  cases hmarker : view.markerPath path rank with
  | error e =>
    have hnone (m : BoundedPath) : view.markerPath path rank ≠ .ok m := by simp [hmarker]
    obtain ⟨fault, herror⟩ := hide_of_no_marker hnone kind
    exact .inl (by rw [herror])
  | ok marker =>
    obtain ⟨parts, b', hparts, hb', hfit, -⟩ := (markerPath_eq_ok_iff hv).1 hmarker
    cases hb.symm.trans hb'
    by_cases hroot : s.fs.LeadsDown b.root
    · exact .inr hroot
    · obtain ⟨fault, herror⟩ := hide_of_no_root hv hfree hparts hb hfit hroot kind
      exact .inl (by rw [herror])

theorem kind_of_hide (hv : view.Accepted) (hfree : s.fs.tree.LinkFree) {parts : List Name}
    {b : Branch} (hparts : unionComponents path = .ok parts) (hb : view.branches[rank]? = some b)
    (h : (view.hide s path rank kind).1 = .ok ()) :
    ∃ e, (view.hide s path rank kind).2.fs.tree.get?
        (view.metaPlace s.fs b ++ view.markerNames parts) = some e ∧ e.kind = kind := by
  obtain ⟨-, hne, hsteps⟩ := unionComponents_eq_ok_iff.1 hparts
  rcases hide_cases hv hfree path rank kind with ⟨e, herror⟩ |
    ⟨parts', b', response, made, hparts', hb', -, hmirror, hend⟩
  · rw [herror] at h
    cases h
  · cases hparts.symm.trans hparts'
    cases hb.symm.trans hb'
    rcases hend with ⟨e, herror⟩ | ⟨-, hplace⟩
    · rw [herror] at h
      cases h
    · rw [hplace, Session.placeMarker] at h ⊢
      split at h
      · cases h
      · next fs hplaced =>
        have hfree' := hmirror.linkFree hfree fun l e hadded => hadded.not_isLink
        have hmarker := FileSystem.placeMarker_kind hfree' hplaced
        rw [placeOf_markerText hv hb made.fs hne hsteps, metaPlace_of_grows hmirror.grows]
          at hmarker
        rw [(Session.offer_sameTree _ _).1]
        exact hmarker

end UnionView

end Whiteout
