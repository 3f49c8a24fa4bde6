import Mathlib.Data.List.Dedup
import Mathlib.Data.List.Infix
import Whiteout.Proofs.Marker.Added
import Whiteout.Proofs.Marker.Repetition

/-!
# What is offered to the acting identity

Every entry that a hide makes is offered to the acting identity, in any tree: each directory that
it makes on the way to the marker, and then the marker, this one also if it was there already. So
the identity is asked for once for each of these directories that is new and once more if the hide
succeeds, wherever the hide is stopped.
-/

namespace Whiteout

open Whiteout.FileSystem (AddsOnly Grows SameTree)
open Whiteout.Path (endsWithSeparator IsComponent)
open Whiteout.Marker (slashed)

namespace FileSystem

def newDir? (before after : FileSystem) (path : Bytes) : Option Location :=
  match after.entryAt path with
  | .ok (place, .dir _) => if (before.tree.get? place).isNone then some place else none
  | _ => none

theorem newDir?_eq_some_iff {before after : FileSystem} {path : Bytes} {place : Location} :
    before.newDir? after path = some place ↔
      before.tree.get? place = none ∧ ∃ mode, after.entryAt path = .ok (place, .dir mode) := by
  rw [newDir?]
  split
  · next l mode hentry =>
    rw [hentry]
    simp only [Option.isNone_iff_eq_none, Option.ite_none_right_eq_some, Option.some.injEq,
      Except.ok.injEq, Prod.mk.injEq, Entry.dir.injEq]
    constructor
    · rintro ⟨hnew, rfl⟩
      exact ⟨hnew, mode, rfl, rfl⟩
    · rintro ⟨hnew, -, rfl, -⟩
      exact ⟨hnew, rfl⟩
  · next hno =>
    refine ⟨nofun, ?_⟩
    rintro ⟨-, mode, hentry⟩
    exact absurd hentry (hno place mode)

theorem placeMarker_adds_one [Host] {fs after : FileSystem} {path : Bytes} {kind : Kind}
    (h : fs.placeMarker path kind = .ok after) :
    ∃ marker, AddsOnly (fun l e => l = marker ∧ e = UnionView.blank Host.granted kind) fs after := by
  cases kind with
  | file =>
    obtain ⟨place, hopen⟩ := createFile_ok h
    obtain ⟨-, ⟨-, rfl⟩ | ⟨hnew, hcwd, hget⟩⟩ := openFile_ok hopen
    · exact ⟨[], .refl _⟩
    · exact ⟨place, IsPut.adds ⟨hcwd, hget⟩ hnew⟩
  | dir =>
    obtain ⟨made, hensure⟩ := placeMarker_dir_ok h
    rcases ensureDirWith_ok hensure with hmade | ⟨rfl, -⟩
    · obtain ⟨place, -, hnew, hcwd, hget⟩ := makeDir_ok hmade
      exact ⟨place, IsPut.adds ⟨hcwd, hget⟩ hnew⟩
    · exact ⟨[], .refl _⟩

end FileSystem

namespace Session

variable [Host] {s middle after : Session} {dirs below : List Bytes} {made later : List Location}

def ensureEach (s : Session) : List Bytes → Except Error Unit × Session
  | [] => (.ok (), s)
  | dir :: below =>
    match s.ensureMetaDir dir with
    | (.error e, made) => (.error e, made)
    | (.ok (), made) => made.ensureEach below

/-- The new entries are the directories `made`, each of them on one of the paths, and the identity
was asked for once for each. -/
structure OffersEach (s : Session) (dirs : List Bytes) (made : List Location) (after : Session) :
    Prop where
  grows : Grows s.fs after.fs
  nodup : made.Nodup
  mem_iff : ∀ l, l ∈ made ↔ s.fs.tree.get? l = none ∧ (after.fs.tree.get? l).isSome = true
  named : ∀ l ∈ made, ∃ d ∈ dirs, after.fs.entryAt d = .ok (l, .dir (Host.granted metaDirMode))
  asked : after.queries = s.queries + made.length

namespace OffersEach

theorem refl (s : Session) (dirs : List Bytes) : s.OffersEach dirs [] s where
  grows := .refl _
  nodup := List.nodup_nil
  mem_iff l := by
    refine ⟨nofun, ?_⟩
    rintro ⟨hnone, hsome⟩
    rw [hnone] at hsome
    cases hsome
  named := nofun
  asked := rfl

theorem trans (h : s.OffersEach dirs made middle) (h' : middle.OffersEach below later after) :
    s.OffersEach (dirs ++ below) (made ++ later) after where
  grows := h.grows.trans h'.grows
  nodup := by
    refine h.nodup.append h'.nodup fun l hl hlater => ?_
    have hnone := ((h'.mem_iff l).1 hlater).1
    have hsome := ((h.mem_iff l).1 hl).2
    rw [hnone] at hsome
    cases hsome
  mem_iff l := by
    rw [List.mem_append, h.mem_iff, h'.mem_iff]
    constructor
    · rintro (⟨hnew, hthere⟩ | ⟨hnew, hthere⟩)
      · obtain ⟨e, he⟩ := Option.isSome_iff_exists.1 hthere
        exact ⟨hnew, by rw [h'.grows.2 l e he]; rfl⟩
      · refine ⟨Option.eq_none_iff_forall_ne_some.2 fun e he => ?_, hthere⟩
        rw [h.grows.2 l e he] at hnew
        cases hnew
    · rintro ⟨hnew, hthere⟩
      cases hmiddle : middle.fs.tree.get? l with
      | none => exact .inr ⟨rfl, hthere⟩
      | some e => exact .inl ⟨hnew, rfl⟩
  named l hl := by
    rcases List.mem_append.1 hl with hl | hl
    · obtain ⟨d, hd, hentry⟩ := h.named l hl
      exact ⟨d, List.mem_append_left _ hd, h'.grows.entryAt hentry⟩
    · obtain ⟨d, hd, hentry⟩ := h'.named l hl
      exact ⟨d, List.mem_append_right _ hd, hentry⟩
  asked := by rw [h'.asked, h.asked, List.length_append, Nat.add_assoc]

end OffersEach

theorem ensureMetaDir_gives {path : Bytes} (hend : endsWithSeparator path = false) (s : Session) :
    ∃ made after, s.OffersEach [path] made after ∧
      ((∃ fault, s.ensureMetaDir path = (.error (.io fault), after)) ∨
        s.ensureMetaDir path = (.ok (), after) ∧ after.fs.probe path = some .dir) := by
  rcases s.ensureMetaDir_cases path with ⟨fs, hmade, hrun⟩ | ⟨hdir, hrun⟩ | ⟨fault, hrun⟩
  · obtain ⟨place, hnew, hput, hentry⟩ := FileSystem.entryAt_of_makeDir hend hmade
    refine ⟨[place], _, ⟨hput.grows hnew, ?_, fun l => ?_, fun l hl => ?_, rfl⟩, .inr ⟨hrun, ?_⟩⟩
    · exact List.pairwise_singleton _ _
    · rw [List.mem_singleton]
      constructor
      · rintro rfl
        exact ⟨hnew, by rw [FileSystem.get?_of_entryAt hentry]; rfl⟩
      · rintro ⟨hnone, hthere⟩
        rw [hput.2] at hthere
        split at hthere
        · next hplace => exact hplace.symm
        · rw [hnone] at hthere
          cases hthere
    · exact List.mem_singleton.1 hl ▸ ⟨path, List.mem_singleton_self _, hentry⟩
    · exact FileSystem.probe_eq_some_iff.2 ⟨place, _, hentry, rfl⟩
  · exact ⟨[], s, .refl s _, .inr ⟨hrun, hdir⟩⟩
  · exact ⟨[], s, .refl s _, .inl ⟨fault, hrun⟩⟩

theorem ensureEach_gives (hend : ∀ d ∈ dirs, endsWithSeparator d = false) (s : Session) :
    ∃ made after, s.OffersEach dirs made after ∧
      ((∃ fault, s.ensureEach dirs = (.error (.io fault), after)) ∨
        s.ensureEach dirs = (.ok (), after) ∧ ∀ d ∈ dirs, after.fs.probe d = some .dir) := by
  -- what is made first is still there, and not new, when the directories after it are made
  induction dirs generalizing s with
  | nil => exact ⟨[], s, .refl s [], .inr ⟨rfl, nofun⟩⟩
  | cons dir below ih =>
    have hbelow : ∀ d ∈ below, endsWithSeparator d = false := fun d hd =>
      hend d (List.mem_cons_of_mem _ hd)
    obtain ⟨made, next, hfirst, ⟨fault, hstopped⟩ | ⟨hnext, hdir⟩⟩ :=
      ensureMetaDir_gives (hend dir List.mem_cons_self) s
    · exact ⟨made ++ [], next, hfirst.trans (.refl next below),
        .inl ⟨fault, by rw [ensureEach, hstopped]⟩⟩
    · obtain ⟨later, after, hlater, hrun⟩ := ih hbelow next
      refine ⟨made ++ later, after, hfirst.trans hlater, ?_⟩
      rw [ensureEach, hnext]
      refine hrun.imp_right fun hdone => ⟨hdone.1, fun d hd => ?_⟩
      rcases List.mem_cons.1 hd with rfl | hd
      · exact hlater.grows.probe hdir
      · exact hdone.2 d hd

theorem ensureMetaDirs_eq_ensureEach {dir : BoundedPath} {names : List Bytes} (hne : dir.text ≠ [])
    (hend : endsWithSeparator dir.text = false) (hnames : ∀ c ∈ names, IsComponent c)
    (hfit : (dir.text ++ slashed names).length + 1 ≤ dir.limit) (s : Session) :
    s.ensureMetaDirs dir names =
      s.ensureEach (names.inits.map fun front => dir.text ++ slashed front) := by
  induction names generalizing s dir with
  | nil =>
    have hhere : ([] : List Bytes).inits.map (fun front => dir.text ++ slashed front) =
        [dir.text] := congrArg (fun text => [text]) (List.append_nil _)
    rw [ensureMetaDirs, hhere, ensureEach]
    rcases s.ensureMetaDir dir.text with ⟨_ | _, made⟩
    · rfl
    · rfl
  | cons name names ih =>
    have hcomp : IsComponent name := hnames name List.mem_cons_self
    have hsplit (front : List Bytes) : dir.text ++ slashed (name :: front) =
        dir.text ++ slashed [name] ++ slashed front := by
      rw [List.append_assoc, ← Path.slashed_append]
      rfl
    have hpush : dir.pushSegment name = .ok { dir with text := dir.text ++ slashed [name] } := by
      rw [BoundedPath.pushSegment_of_isComponent hne hend hcomp]
      refine BoundedPath.extendTo_eq_ok_iff.2 ⟨?_, rfl⟩
      rw [hsplit, List.length_append] at hfit
      omega
    have hrest (next : Session) :
        next.ensureMetaDirs { dir with text := dir.text ++ slashed [name] } names =
          next.ensureEach (names.inits.map fun front =>
            dir.text ++ slashed [name] ++ slashed front) :=
      ih (by simp [hne]) (Path.endsWithSeparator_slashed _ (by simp) (by simpa using hcomp))
        (fun c hc => hnames c (List.mem_cons_of_mem _ hc)) (hsplit names ▸ hfit) next
    have hbelow : (names.inits.map fun front => dir.text ++ slashed (name :: front)) =
        names.inits.map fun front => dir.text ++ slashed [name] ++ slashed front :=
      List.map_congr_left fun front _ => hsplit front
    have hhere : dir.text ++ slashed [] = dir.text := List.append_nil _
    rw [ensureMetaDirs, List.inits_cons, List.map_cons, List.map_map, ensureEach, hhere]
    rcases s.ensureMetaDir dir.text with ⟨_ | _, made⟩
    · rfl
    · simp only [hpush, hrest, Function.comp_def, hbelow]

end Session

namespace UnionView

variable {view : UnionView} {s middle : Session} {before after : FileSystem} {path : Bytes}
  {rank : Nat} {kind : Kind} {made : List Location}

/-- The paths of the directories that lead to the marker of a path, the top one first. -/
def metaDirs (view : UnionView) (path : Bytes) (rank : Nat) : List Bytes :=
  match view.branches[rank]?, unionComponents path with
  | some b, .ok parts => parts.dropLast.inits.map fun front => view.metaText b ++ slashed front
  | _, _ => []

def newMetaDirs (view : UnionView) (before after : FileSystem) (path : Bytes) (rank : Nat) :
    List Location :=
  ((view.metaDirs path rank).filterMap (before.newDir? after)).dedup

theorem mem_newMetaDirs {l : Location} : l ∈ view.newMetaDirs before after path rank ↔
    ∃ d ∈ view.metaDirs path rank, before.tree.get? l = none ∧
      ∃ mode, after.entryAt d = .ok (l, .dir mode) := by
  simp only [newMetaDirs, List.mem_dedup, List.mem_filterMap, FileSystem.newDir?_eq_some_iff]

theorem isSome_of_mem_newMetaDirs {l : Location}
    (h : l ∈ view.newMetaDirs before after path rank) : (after.tree.get? l).isSome = true := by
  obtain ⟨d, -, -, mode, hentry⟩ := mem_newMetaDirs.1 h
  rw [FileSystem.get?_of_entryAt hentry]
  rfl

theorem newMetaDirs_self (view : UnionView) (fs : FileSystem) (path : Bytes) (rank : Nat) :
    view.newMetaDirs fs fs path rank = [] := by
  refine List.eq_nil_iff_forall_not_mem.2 fun l hl => ?_
  have hthere := isSome_of_mem_newMetaDirs hl
  obtain ⟨-, -, hnew, -⟩ := mem_newMetaDirs.1 hl
  rw [hnew] at hthere
  cases hthere

theorem endsWithSeparator_of_mem_metaDirs (hv : view.Accepted) {d : Bytes}
    (hd : d ∈ view.metaDirs path rank) : endsWithSeparator d = false := by
  rw [metaDirs] at hd
  split at hd
  · next b parts hb hparts =>
    obtain ⟨front, hfront, rfl⟩ := List.mem_map.1 hd
    have hprefix : front <+: parts :=
      ((List.mem_inits _ _).1 hfront).trans (List.dropLast_prefix _)
    exact view.endsWithSeparator_mirrored hv b fun c hc =>
      (isStep_of_mem_front hparts hprefix c hc).isComponent
  · cases hd

theorem newMetaDirs_sameTree {other : FileSystem} (h : SameTree after other) :
    view.newMetaDirs before other path rank = view.newMetaDirs before after path rank := by
  unfold newMetaDirs FileSystem.newDir?
  simp only [h.entryAt]

variable [Host]

/-- The directories that were made are the new ones afterwards as well, if whatever leads there
later led there already. -/
theorem newMetaDirs_perm (h : s.OffersEach (view.metaDirs path rank) made middle)
    (hgrow : Grows middle.fs after) (hthere : ∀ l ∈ view.newMetaDirs s.fs after path rank,
      (middle.fs.tree.get? l).isSome = true) :
    (view.newMetaDirs s.fs after path rank).Perm made := by
  refine (List.perm_ext_iff_of_nodup (List.nodup_dedup _) h.nodup).2 fun l => ?_
  constructor
  · intro hl
    obtain ⟨-, -, hnew, -⟩ := mem_newMetaDirs.1 hl
    exact (h.mem_iff l).2 ⟨hnew, hthere l hl⟩
  · intro hl
    obtain ⟨d, hd, hentry⟩ := h.named l hl
    exact mem_newMetaDirs.2 ⟨d, hd, ((h.mem_iff l).1 hl).1, _, hgrow.entryAt hentry⟩

theorem hide_eq_ensureEach (hv : view.Accepted) {parts : List Name} {b : Branch}
    (hparts : unionComponents path = .ok parts) (hb : view.branches[rank]? = some b)
    (hfit : (view.markerText b parts).length + 1 ≤ view.maxPathLen) (s : Session) (kind : Kind) :
    view.hide s path rank kind =
      match s.ensureEach (view.metaDirs path rank) with
      | (.error e, made) => (.error e, made)
      | (.ok (), made) => made.placeMarker (view.markerText b parts) kind := by
  have hbase : view.metaText b ++ slashed [] = view.metaText b := List.append_nil _
  have hdirs : view.metaDirs path rank = parts.dropLast.inits.map fun front =>
      view.metaText b ++ slashed [] ++ slashed front := by
    rw [metaDirs, hb, hparts, hbase]
  have hfront : (view.metaText b ++ slashed [] ++ slashed parts.dropLast).length + 1 ≤
      view.maxPathLen := by
    obtain ⟨front, last, rfl⟩ := Location.exists_concat (unionComponents_eq_ok_iff.1 hparts).2.1
    rw [markerText_concat, Path.slashed_append] at hfit
    rw [hbase, List.dropLast_concat]
    simp only [List.length_append] at hfit ⊢
    omega
  have hmirror : s.ensureMetaDirs ⟨view.metaText b ++ slashed [], view.maxPathLen⟩
      parts.dropLast = s.ensureEach (view.metaDirs path rank) := by
    rw [hdirs]
    exact s.ensureMetaDirs_eq_ensureEach (by simp [metaText_ne_nil hv hb])
      (view.endsWithSeparator_mirrored hv b (by simp))
      (fun c hc => (isStep_of_mem_front hparts (List.dropLast_prefix _) c hc).isComponent) hfront
  rcases hrun : s.ensureEach (view.metaDirs path rank) with ⟨_ | _, made⟩
  · simp only [hide_of_fits hv hparts hb hfit, hmirror, hrun]
  · simp only [hide_of_fits hv hparts hb hfit, hmirror, hrun]

/-- How a hide left its session: whatever is new was offered to the acting identity, and the
identity was asked for once for each new directory and once if the hide succeeded. -/
structure Offers (view : UnionView) (path : Bytes) (rank : Nat) (kind : Kind) (s : Session)
    (answer : Except Error Unit) (after : Session) : Prop where
  asked : after.queries = s.queries + (view.newMetaDirs s.fs after.fs path rank).length +
    if answer.isOk then 1 else 0
  new : ∃ marker, ∀ l e, s.fs.tree.get? l = none → after.fs.tree.get? l = some e →
    l ∈ view.newMetaDirs s.fs after.fs path rank ∨
      l = marker ∧ answer = .ok () ∧ e = blank Host.granted kind
  fault : ∀ e, answer = .error e → e.IsRequestFault → after.queries = s.queries

theorem Offers.of_refused {e : Error} (s : Session) :
    view.Offers path rank kind s (.error e) s where
  asked := by
    rw [newMetaDirs_self]
    rfl
  new := by
    refine ⟨[], fun l e hnone hsome => ?_⟩
    rw [hnone] at hsome
    cases hsome
  fault _ _ _ := rfl

theorem Offers.of_stopped {fault : IoError} (h : s.OffersEach (view.metaDirs path rank) made middle) :
    view.Offers path rank kind s (.error (.io fault)) middle := by
  have hperm := newMetaDirs_perm h (.refl _) fun l hl => isSome_of_mem_newMetaDirs hl
  refine ⟨?_, ⟨[], fun l e hnone hsome => .inl ?_⟩, fun e he hfault => ?_⟩
  · rw [h.asked, hperm.length_eq]
    rfl
  · exact hperm.mem_iff.2 ((h.mem_iff l).2 ⟨hnone, by rw [hsome]; rfl⟩)
  · cases he
    cases hfault

theorem Offers.of_placed (h : s.OffersEach (view.metaDirs path rank) made middle)
    (hdirs : ∀ d ∈ view.metaDirs path rank, middle.fs.probe d = some .dir) (marker : Bytes)
    (kind : Kind) : view.Offers path rank kind s (middle.placeMarker marker kind).1
      (middle.placeMarker marker kind).2 := by
  rw [Session.placeMarker]
  split
  · exact .of_stopped h
  · next fs hplaced =>
    obtain ⟨place, hadds⟩ := FileSystem.placeMarker_adds_one hplaced
    have hthere : ∀ l ∈ view.newMetaDirs s.fs fs path rank,
        (middle.fs.tree.get? l).isSome = true := by
      intro l hl
      obtain ⟨d, hd, -, mode, hentry⟩ := mem_newMetaDirs.1 hl
      obtain ⟨place, e, hmiddle, -⟩ := FileSystem.probe_eq_some_iff.1 (hdirs d hd)
      cases (hadds.grows.entryAt hmiddle).symm.trans hentry
      rw [FileSystem.get?_of_entryAt hmiddle]
      rfl
    have hperm := newMetaDirs_perm h hadds.grows hthere
    have hoffered := Session.offer_sameTree { middle with fs } marker
    have hqueries := Session.offer_queries { middle with fs } marker
    refine ⟨?_, ⟨place, fun l e hnone hsome => ?_⟩, fun fault hfault => ?_⟩
    · rw [hqueries, newMetaDirs_sameTree hoffered, hperm.length_eq]
      simp only [h.asked, Except.isOk, Except.toBool, if_true]
    · rw [hoffered.1] at hsome
      rw [newMetaDirs_sameTree hoffered]
      rcases hadds.fresh l e hsome with hold | ⟨hl, he⟩
      · exact .inl (hperm.mem_iff.2 ((h.mem_iff l).2 ⟨hnone, by rw [hold]; rfl⟩))
      · exact .inr ⟨hl, rfl, he⟩
    · cases hfault

theorem hide_offers (hv : view.Accepted) (s : Session) (path : Bytes) (rank : Nat) (kind : Kind) :
    view.Offers path rank kind s (view.hide s path rank kind).1 (view.hide s path rank kind).2 := by
  cases hmarker : view.markerPath path rank with
  | error e =>
    have hnone (m : BoundedPath) : view.markerPath path rank ≠ .ok m := by simp [hmarker]
    obtain ⟨fault, hfault⟩ := hide_of_no_marker hnone kind
    rw [hfault]
    exact .of_refused s
  | ok marker =>
    obtain ⟨parts, b, hparts, hb, hfit, -⟩ := (markerPath_eq_ok_iff hv).1 hmarker
    have hend : ∀ d ∈ view.metaDirs path rank, endsWithSeparator d = false :=
      fun d hd => endsWithSeparator_of_mem_metaDirs hv hd
    obtain ⟨made, middle, hgives, ⟨fault, hstopped⟩ | ⟨hdone, hdirs⟩⟩ :=
      Session.ensureEach_gives hend s
    · rw [hide_eq_ensureEach hv hparts hb hfit, hstopped]
      exact .of_stopped hgives
    · rw [hide_eq_ensureEach hv hparts hb hfit, hdone]
      exact .of_placed hgives hdirs _ kind

end UnionView

end Whiteout
