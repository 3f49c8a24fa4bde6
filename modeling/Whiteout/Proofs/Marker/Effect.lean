import Whiteout.Proofs.FileSystem.Grants
import Whiteout.Proofs.Marker.Footprint
import Whiteout.Proofs.Marker.SpecialBits

/-!
# The effect of a hide

What a hide answers and what it does to the file system depends on the file system alone, not on the
rest of the session. In a tree without links, below a branch root that is there, a hide whose marker
fits asks for the metadata directory, for the directories that mirror the path, the top one first,
and for the marker. All of these stand at different places, so what is at these places beforehand
decides which of them are granted and with what the hide fails.
-/

namespace Whiteout

open Whiteout.FileSystem (AddsAll AddsOnly Carries Grows SameTree Wanted startOf)
open Whiteout.Path (components isAbsolute IsStep IsComponent endsWithSeparator)
open Whiteout.Marker (slashed)

namespace FileSystem

variable {fs middle after : FileSystem} {ws vs : List Wanted} {w : Wanted}
  {outcome : Option IoError} {fault : IoError}

theorem LeadsDown.inReach {path : Bytes} {name : Name} (h : fs.LeadsDown path)
    (hcomps : components w.path = components path ++ [name]) (hname : name ≠ [])
    (habs : isAbsolute w.path = isAbsolute path) (hend : endsWithSeparator w.path = false)
    (hplace : w.place = (fs.placeOf path).along [name]) : w.InReach fs := by
  have hlast : w.lastName = name := by simp [Wanted.lastName, hcomps]
  have hstart : startOf fs.cwd w.path = startOf fs.cwd path := by rw [startOf, startOf, habs]
  exact ⟨hend, hlast ▸ hname, _, _, hlast ▸ hcomps, hstart ▸ h, hlast ▸ hplace⟩

variable [Host]

namespace Carries

theorem append (h : Carries fs ws none middle) (h' : Carries middle vs outcome after) :
    Carries fs (ws ++ vs) outcome after := by
  generalize hnone : (none : Option IoError) = first at h
  induction h with
  | done => exact h'
  | refused => cases hnone
  | granted hanswer _ ih => exact .granted hanswer (ih h' hnone)

theorem append_refused (h : Carries fs ws (some fault) after) (vs : List Wanted) :
    Carries fs (ws ++ vs) (some fault) after := by
  generalize hsome : some fault = first at h
  induction h with
  | done => cases hsome
  | refused hanswer => exact .refused hanswer
  | granted hanswer _ ih => exact .granted hanswer (ih hsome)

end Carries

theorem Wanted.Answers.isDirAt {made : Bool} (h : w.Answers fs (.ok (made, after)))
    (hkind : w.kind = .dir) : after.tree.isDirAt w.place = true := by
  cases h with
  | @present e hfault hget =>
    have hdir := hkind ▸ Wanted.kind_of_fault?_eq_none hfault hget
    cases e with
    | dir mode => exact Tree.isDirAt_iff.2 ⟨mode, hget⟩
    | file => cases hdir
    | link => cases hdir
  | added _ _ hput =>
    refine Tree.isDirAt_iff.2 ⟨Host.granted w.mode, ?_⟩
    rw [hput.2, if_pos rfl, Wanted.entry, hkind]

theorem Wanted.Answers.linkFree {made : Bool} (h : w.Answers fs (.ok (made, after)))
    (hfree : fs.tree.LinkFree) : after.tree.LinkFree :=
  h.adds.2.linkFree hfree fun _ _ hadded => hadded.2 ▸ w.isLink_entry

end FileSystem

def ioOutcome : Option IoError → Except Error Unit
  | none => .ok ()
  | some fault => .error (.io fault)

namespace Session

variable [Host] {s t : Session}

theorem ensureMetaDir_answers {w : Wanted}
    (h : w.Answers s.fs (s.fs.ensureDirWith w.path metaDirMode)) :
    (∃ fault, s.ensureMetaDir w.path = (.error (.io fault), s) ∧ w.Answers s.fs (.error fault)) ∨
      ∃ made next, s.ensureMetaDir w.path = (.ok (), next) ∧
        w.Answers s.fs (.ok (made, next.fs)) := by
  rw [ensureMetaDir]
  cases hensure : s.fs.ensureDirWith w.path metaDirMode with
  | error fault => exact .inl ⟨fault, rfl, hensure ▸ h⟩
  | ok done =>
    rw [hensure] at h
    obtain ⟨made, fs⟩ := done
    rcases FileSystem.ensureDirWith_cases hensure with ⟨rfl, hmade⟩ | ⟨rfl, rfl, -⟩
    · have hoffer : { s with fs }.offer w.path = { s with fs, queries := s.queries + 1 } :=
        offer_of_dir fun _ _ => FileSystem.isDir_of_makeDir hmade
      exact .inr ⟨true, _, congrArg (Prod.mk _) hoffer, h⟩
    · exact .inr ⟨false, s, rfl, h⟩

theorem placeMarker_answers {w : Wanted} {kind : Kind}
    (h : ∃ outcome, w.Answers s.fs outcome ∧ s.fs.placeMarker w.path kind = outcome.map Prod.snd) :
    ∃ outcome placed, (s.placeMarker w.path kind).1 = ioOutcome outcome ∧
      Carries s.fs [w] outcome placed ∧ SameTree placed (s.placeMarker w.path kind).2.fs := by
  obtain ⟨outcome, hanswer, hplace⟩ := h
  rw [placeMarker, hplace]
  cases outcome with
  | error fault => exact ⟨some fault, s.fs, rfl, .refused hanswer, .refl _⟩
  | ok done =>
    exact ⟨none, done.2, rfl, .granted hanswer .done, offer_sameTree { s with fs := done.2 } w.path⟩

end Session

namespace UnionView

variable {view : UnionView} {s t : Session} {b : Branch} {rank : Nat} {path : Bytes}
  {base : Location} {parts done rest names : List Name} {kind : Kind} {w : Wanted}

def mirrored (view : UnionView) (b : Branch) (base : Location) (names : List Name) : Wanted :=
  ⟨view.metaText b ++ slashed names, base ++ names, .dir, metaDirMode⟩

def markerMode : Kind → Nat
  | .file => fileMarkerMode
  | .dir => dirMarkerMode

def wantedMarker (view : UnionView) (b : Branch) (base : Location) (parts : List Name)
    (kind : Kind) : Wanted :=
  ⟨view.markerText b parts, base ++ view.markerNames parts, kind, markerMode kind⟩

def mirroredFrom (view : UnionView) (b : Branch) (base : Location) (done : List Name) :
    List Name → List Wanted
  | [] => [view.mirrored b base done]
  | name :: rest => view.mirrored b base done :: view.mirroredFrom b base (done ++ [name]) rest

/-- What a hide asks for, in this order. -/
def plan (view : UnionView) (b : Branch) (base : Location) (parts : List Name) (kind : Kind) :
    List Wanted :=
  view.mirroredFrom b base [] parts.dropLast ++ [view.wantedMarker b base parts kind]

theorem mem_mirroredFrom : w ∈ view.mirroredFrom b base done rest ↔
    ∃ names, names <+: rest ∧ w = view.mirrored b base (done ++ names) := by
  induction rest generalizing done with
  | nil => simp [mirroredFrom]
  | cons name rest ih =>
    rw [mirroredFrom, List.mem_cons, ih]
    constructor
    · rintro (rfl | ⟨names, hnames, rfl⟩)
      · exact ⟨[], List.nil_prefix, by rw [List.append_nil]⟩
      · exact ⟨name :: names, List.cons_prefix_cons.2 ⟨rfl, hnames⟩, by simp⟩
    · rintro ⟨names, hnames, rfl⟩
      cases names with
      | nil => exact .inl (by rw [List.append_nil])
      | cons first names =>
        obtain ⟨rfl, hrest⟩ := List.cons_prefix_cons.1 hnames
        exact .inr ⟨names, hrest, by simp⟩

theorem mirroredFrom_eq : view.mirroredFrom b base done rest =
    (List.range (rest.length + 1)).map fun n => view.mirrored b base (done ++ rest.take n) := by
  induction rest generalizing done with
  | nil => simp [mirroredFrom]
  | cons name rest ih =>
    have hrange : List.range (rest.length + 1 + 1) =
        0 :: (List.range (rest.length + 1)).map Nat.succ := List.range_succ_eq_map
    rw [mirroredFrom, ih, List.length_cons, hrange]
    simp [Function.comp_def]

theorem mem_plan : w ∈ view.plan b base parts kind ↔
    (∃ names, names <+: parts.dropLast ∧ w = view.mirrored b base names) ∨
      w = view.wantedMarker b base parts kind := by
  rw [plan, List.mem_append, mem_mirroredFrom, List.mem_singleton]
  rfl

theorem pairwise_mirroredFrom : (view.mirroredFrom b base done rest).Pairwise
    fun v w => v.place ≠ w.place := by
  induction rest generalizing done with
  | nil => exact List.pairwise_singleton _ _
  | cons name rest ih =>
    refine List.pairwise_cons.2 ⟨fun w hw hplace => ?_, ih⟩
    obtain ⟨names, -, rfl⟩ := mem_mirroredFrom.1 hw
    simp [mirrored] at hplace

theorem pairwise_plan (hne : parts ≠ []) : (view.plan b base parts kind).Pairwise
    fun v w => v.place ≠ w.place := by
  refine List.pairwise_append.2 ⟨pairwise_mirroredFrom, List.pairwise_singleton _ _, ?_⟩
  intro v hv w hw hplace
  obtain ⟨names, hnames, rfl⟩ := mem_mirroredFrom.1 hv
  rw [List.mem_singleton.1 hw] at hplace
  have hlen := congrArg List.length (List.append_cancel_left hplace)
  have hshort := hnames.length_le
  obtain ⟨front, last, rfl⟩ := Location.exists_concat hne
  rw [markerNames_concat] at hlen
  simp only [List.nil_append, List.length_append, List.length_singleton] at hlen
  rw [List.dropLast_concat] at hshort
  omega

theorem placeMarker_carries [Host] (hfree : s.fs.tree.LinkFree)
    (hreach : (view.wantedMarker b base parts kind).InReach s.fs) :
    ∃ outcome placed, (s.placeMarker (view.markerText b parts) kind).1 = ioOutcome outcome ∧
      Carries s.fs [view.wantedMarker b base parts kind] outcome placed ∧
        SameTree placed (s.placeMarker (view.markerText b parts) kind).2.fs := by
  refine s.placeMarker_answers (w := view.wantedMarker b base parts kind) ?_
  cases kind with
  | file => exact hreach.createFile_answers hfree rfl
  | dir => exact ⟨_, hreach.ensureDirWith_answers hfree rfl, rfl⟩

section

variable (hv : view.Accepted) (hb : view.branches[rank]? = some b)
include hv hb

theorem isAbsolute_metaText (rest : Bytes) :
    isAbsolute (view.metaText b ++ rest) = isAbsolute b.root := by
  rw [Path.isAbsolute_append (metaText_ne_nil hv hb), metaText,
    BoundedPath.isAbsolute_joined (hv.rooted b (List.mem_of_getElem? hb))]

theorem inReach_metaDir (hroot : s.fs.LeadsDown b.root) :
    (view.mirrored b (view.metaPlace s.fs b) []).InReach s.fs := by
  have hempty : view.metaText b ++ slashed [] = view.metaText b := by simp [slashed]
  refine hroot.inReach ?_ hv.metaDir.1 (isAbsolute_metaText hv hb _)
    (view.endsWithSeparator_mirrored hv b (by simp)) ?_
  · exact (congrArg components hempty).trans (components_metaText hv b)
  · exact (List.append_nil _).trans (metaPlace_eq hv hb s.fs)

theorem inReach_below (hreach : (view.mirrored b base done).InReach s.fs)
    (hdir : s.fs.tree.isDirAt (base ++ done) = true) (hdone : ∀ c ∈ done, IsComponent c)
    {name : Name} (hname : IsStep name)
    (hpath : w.path = view.metaText b ++ slashed (done ++ [name]))
    (hplace : w.place = base ++ (done ++ [name])) : w.InReach s.fs := by
  obtain ⟨hread, hdown⟩ := hreach.leadsDown hdir
  have hcomps : ∀ c ∈ done ++ [name], IsComponent c := by
    simpa [or_imp, forall_and] using ⟨hdone, hname.isComponent⟩
  refine hdown.inReach ?_ hname.1.1 ?_ ?_ ?_
  · rw [hpath, mirrored, Path.components_append_slashed hcomps,
      Path.components_append_slashed hdone, List.append_assoc]
  · rw [hpath, mirrored, isAbsolute_metaText hv hb, isAbsolute_metaText hv hb]
  · rw [hpath]
    exact view.endsWithSeparator_mirrored hv b hcomps
  · rw [hplace, hread, mirrored, Location.along_down _ hname.1, Location.along, List.append_assoc]

variable [Host]

theorem ensureMetaDirs_carries (hfree : s.fs.tree.LinkFree)
    (hreach : (view.mirrored b base done).InReach s.fs) (hsteps : ∀ c ∈ done ++ rest, IsStep c)
    {limit : Nat} (hfit : (view.metaText b ++ slashed (done ++ rest)).length + 1 ≤ limit) :
    ∃ outcome next, s.ensureMetaDirs ⟨view.metaText b ++ slashed done, limit⟩ rest =
        (ioOutcome outcome, next) ∧
      Carries s.fs (view.mirroredFrom b base done rest) outcome next.fs ∧
      next.fs.tree.LinkFree ∧ (outcome = none →
        (view.mirrored b base (done ++ rest)).InReach next.fs ∧
          next.fs.tree.isDirAt (base ++ (done ++ rest)) = true) := by
  induction rest generalizing s done with
  | nil =>
    rcases s.ensureMetaDir_answers (hreach.ensureDirWith_answers hfree rfl) with
      ⟨fault, hensure, hanswer⟩ | ⟨made, next, hensure, hanswer⟩
    · exact ⟨some fault, s, hensure, .refused hanswer, hfree, nofun⟩
    · rw [List.append_nil]
      exact ⟨none, next, hensure, .granted hanswer .done, hanswer.linkFree hfree, fun _ =>
        ⟨hreach.grows hanswer.adds.2.grows, hanswer.isDirAt rfl⟩⟩
  | cons name rest ih =>
    have hsplit : done ++ name :: rest = done ++ [name] ++ rest := by simp
    have hdone : ∀ c ∈ done, IsComponent c := fun c hc =>
      (hsteps c (List.mem_append_left _ hc)).isComponent
    have hname : IsStep name := hsteps name (by simp)
    have hfirst := s.ensureMetaDir_answers (hreach.ensureDirWith_answers hfree rfl)
    rw [mirrored] at hfirst
    rw [Session.ensureMetaDirs]
    rcases hfirst with ⟨fault, hensure, hanswer⟩ | ⟨made, middle, hensure, hanswer⟩
    · rw [hensure]
      exact ⟨some fault, s, rfl, .refused hanswer, hfree, nofun⟩
    · have hpush : BoundedPath.pushSegment ⟨view.metaText b ++ slashed done, limit⟩ name =
          .ok ⟨view.metaText b ++ slashed (done ++ [name]), limit⟩ := by
        have hend := view.endsWithSeparator_mirrored hv b hdone
        rw [BoundedPath.pushSegment_of_isComponent (by simp [metaText_ne_nil hv hb]) hend
          hname.isComponent, BoundedPath.extendTo_eq_ok_iff]
        rw [hsplit, Path.slashed_append _ rest, ← List.append_assoc, List.length_append] at hfit
        rw [Path.slashed_append, ← List.append_assoc] at hfit ⊢
        exact ⟨by dsimp only; omega, rfl⟩
      have hmiddle := hreach.grows hanswer.adds.2.grows
      have hnext : (view.mirrored b base (done ++ [name])).InReach middle.fs :=
        inReach_below hv hb hmiddle (hanswer.isDirAt rfl) hdone hname rfl rfl
      rw [hsplit] at hsteps hfit ⊢
      obtain ⟨outcome, next, hlater, hcarries, hend⟩ := ih (hanswer.linkFree hfree) hnext hsteps hfit
      refine ⟨outcome, next, ?_, .granted hanswer hcarries, hend⟩
      rw [hensure]
      dsimp only
      rw [hpush]
      exact hlater

/-- A hide asks for what it plans, from its branch root down. -/
theorem hide_carries (hfree : s.fs.tree.LinkFree) (hroot : s.fs.LeadsDown b.root)
    (hparts : unionComponents path = .ok parts)
    (hfit : (view.markerText b parts).length + 1 ≤ view.maxPathLen) :
    ∃ outcome placed, (view.hide s path rank kind).1 = ioOutcome outcome ∧
      Carries s.fs (view.plan b (view.metaPlace s.fs b) parts kind) outcome placed ∧
        SameTree placed (view.hide s path rank kind).2.fs := by
  obtain ⟨-, hne, hsteps⟩ := unionComponents_eq_ok_iff.1 hparts
  obtain ⟨front, last, rfl⟩ := Location.exists_concat hne
  have hfront : ∀ c ∈ front, IsStep c := fun c hc => hsteps c (List.mem_append_left _ hc)
  have hfit' : (view.metaText b ++ slashed ([] ++ front)).length + 1 ≤ view.maxPathLen := by
    rw [markerText_concat, Path.slashed_append, ← List.append_assoc, List.length_append] at hfit
    rw [List.nil_append]
    omega
  obtain ⟨outcome, next, hmirror, hcarries, hfree', hend⟩ := ensureMetaDirs_carries hv hb hfree
    (inReach_metaDir hv hb hroot) hfront hfit'
  rw [hide_of_fits hv hparts hb hfit, plan, List.dropLast_concat, hmirror]
  cases outcome with
  | some fault => exact ⟨some fault, next.fs, rfl, hcarries.append_refused _, .refl _⟩
  | none =>
    obtain ⟨hreach, hdir⟩ := hend rfl
    have hmarker : (view.wantedMarker b (view.metaPlace s.fs b) (front ++ [last]) kind).InReach
        next.fs := by
      refine inReach_below hv hb hreach hdir (fun c hc => (hfront c hc).isComponent)
        ((hsteps last (by simp)).append hv.hideTag) ?_ ?_
      · rw [wantedMarker, markerText_concat, List.nil_append]
      · rw [wantedMarker, markerNames_concat, List.nil_append]
    obtain ⟨outcome, placed, hanswer, hlast, hsame⟩ := placeMarker_carries hfree' hmarker
    exact ⟨outcome, placed, hanswer, hcarries.append hlast, hsame⟩

theorem hide_effect (hfree : s.fs.tree.LinkFree) (hroot : s.fs.LeadsDown b.root)
    (hparts : unionComponents path = .ok parts)
    (hfit : (view.markerText b parts).length + 1 ≤ view.maxPathLen) (kind : Kind) :
    (view.hide s path rank kind).1 =
        ioOutcome (s.fs.firstFault? (view.plan b (view.metaPlace s.fs b) parts kind)) ∧
      AddsAll (s.fs.Granted (view.plan b (view.metaPlace s.fs b) parts kind)) s.fs
        (view.hide s path rank kind).2.fs := by
  obtain ⟨outcome, placed, hanswer, hcarries, hsame⟩ := hide_carries hv hb hfree hroot hparts hfit
  obtain ⟨hfirst, hadds⟩ := hcarries.effect (pairwise_plan (unionComponents_eq_ok_iff.1 hparts).2.1)
  exact ⟨hfirst ▸ hanswer, hadds.sameTree hsame⟩

end

end UnionView

end Whiteout
