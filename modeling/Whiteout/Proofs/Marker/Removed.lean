import Whiteout.Proofs.Marker.Cleanup
import Whiteout.Proofs.Marker.Survival
import Whiteout.Proofs.Mirror.Layout

/-!
# Exactly what a removal takes away

A removal goes through the branches in rank order up to the last one asked about. Only a path that
has no marker path in one of them stops it there. A marker that is no directory and one that is an
empty directory is taken away, a directory with content is reported, and nothing else changes. A
marker is passed over if its branch root leads through another one that is taken away before.
-/

namespace Whiteout.UnionView

open Text (utf8)
open Whiteout.FileSystem (IsCut)

variable {view : UnionView} {fs without final : FileSystem} {path marker : Bytes} {rank i : Nat}
  {place : Location} {report : CleanupReport} {ranks : List Nat} {m : BoundedPath}

/-- What the removal of the path's markers in some branches reports and leaves. A marker is passed
over only where it is out of reach, because the branch root leads through one taken away before. -/
structure Removes (view : UnionView) (fs : FileSystem) (path : Bytes) (ranks : List Nat)
    (report : CleanupReport) (final : FileSystem) : Prop where
  removed_sublist : report.removed.Sublist ranks
  mem_removed : ∀ i, i ∈ report.removed ↔ i ∈ ranks ∧ (∃ place, view.Removable fs path i place) ∧
    view.RootKept fs path report.removed i
  failures_sublist : (report.failures.map CleanupFailure.rank).Sublist ranks
  mem_failures : ∀ f, f ∈ report.failures ↔ f.rank ∈ ranks ∧
    (view.Occupied fs path f.rank f.path ∧ view.RootKept fs path report.removed f.rank) ∧
      f.reason = .system .notEmpty
  cwd : final.cwd = fs.cwd
  gone : ∀ i ∈ report.removed, ∀ place, view.Removable fs path i place →
    final.tree.get? place = none
  kept : ∀ l, (∀ i ∈ report.removed, ¬view.Removable fs path i l) →
    final.tree.get? l = fs.tree.get? l

namespace Removes

theorem nil : view.Removes fs path [] .empty fs := by
  constructor
  · exact List.Sublist.slnil
  · simp [CleanupReport.empty]
  · exact List.Sublist.slnil
  · simp [CleanupReport.empty]
  · rfl
  · nofun
  · exact fun _ _ => rfl

theorem cons_kept (h : view.Removes fs path ranks report final)
    (hkept : ∀ place, ¬view.Removable fs path rank place) (failures : List CleanupFailure)
    (hfailures : (failures.map CleanupFailure.rank).Sublist [rank])
    (hmem : ∀ f, f ∈ failures ↔ f.rank = rank ∧
      (view.Occupied fs path f.rank f.path ∧ view.RootKept fs path report.removed f.rank) ∧
        f.reason = .system .notEmpty) :
    view.Removes fs path (rank :: ranks) { report with failures := failures ++ report.failures }
      final := by
  constructor
  · exact h.removed_sublist.cons rank
  · intro i
    rw [h.mem_removed, List.mem_cons, or_and_right]
    refine (or_iff_right ?_).symm
    rintro ⟨rfl, ⟨place, hplace⟩, -⟩
    exact hkept place hplace
  · rw [List.map_append]
    exact hfailures.append h.failures_sublist
  · intro f
    rw [List.mem_append, hmem, h.mem_failures, List.mem_cons, or_and_right]
  · exact h.cwd
  · exact h.gone
  · exact h.kept

theorem cons_absent (h : view.Removes fs path ranks report final)
    (hmarker : view.markerPath path rank = .ok m) (habsent : ∀ x, fs.entryAt m.text ≠ .ok x) :
    view.Removes fs path (rank :: ranks) report final := by
  refine h.cons_kept ?_ [] (List.nil_sublist _) fun f => ⟨nofun, ?_⟩
  · intro place hplace
    obtain ⟨m', e, hmarker', hentry, -⟩ := hplace
    cases hmarker.symm.trans hmarker'
    exact habsent _ hentry
  · intro hf
    obtain ⟨hrank, ⟨⟨m', place, mode, hmarker', -, hentry, -⟩, -⟩, -⟩ := hf
    cases hmarker.symm.trans (hrank ▸ hmarker')
    exact absurd hentry (habsent _)

theorem cons_occupied (h : view.Removes fs path ranks report final)
    (hbefore : ∀ j ∈ ranks, rank < j) (hfull : view.Occupied fs path rank marker) :
    view.Removes fs path (rank :: ranks)
      (report.withFailure ⟨rank, marker, .system .notEmpty⟩) final := by
  refine h.cons_kept (fun place hplace => hplace.not_occupied hfull)
    [⟨rank, marker, .system .notEmpty⟩] (List.Sublist.refl _) fun f => ?_
  rw [List.mem_singleton]
  constructor
  · intro hf
    rw [hf]
    have hlater (j : Nat) (hj : j ∈ report.removed) : rank ≤ j :=
      Nat.le_of_lt (hbefore j (h.removed_sublist.subset hj))
    exact ⟨rfl, ⟨hfull, rootKept_of_later hlater⟩, rfl⟩
  · intro hf
    obtain ⟨f, text, reason⟩ := f
    obtain ⟨rfl, ⟨hother, -⟩, rfl⟩ := hf
    rw [hfull.unique hother]

theorem cons_removed (h : view.Removes without path ranks report final)
    (hbefore : ∀ j ∈ ranks, rank < j) (hi : view.Removable fs path rank place)
    (hcut : IsCut fs without place)
    (hremovable : ∀ j ∈ ranks, ∀ l, view.Removable without path j l ↔
      view.Removable fs path j l ∧ view.RootAvoids fs j place)
    (hoccupied : ∀ j ∈ ranks, ∀ marker, view.Occupied without path j marker ↔
      view.Occupied fs path j marker ∧ view.RootAvoids fs j place) :
    view.Removes fs path (rank :: ranks) (report.withRemoved rank) final := by
  have hlater (j : Nat) (hj : j ∈ report.removed) : rank ≤ j :=
    Nat.le_of_lt (hbefore j (h.removed_sublist.subset hj))
  -- what is taken away later stands now as well
  have hsame (j : Nat) (hj : j ∈ report.removed) (l : Location) :
      view.Removable without path j l ↔ view.Removable fs path j l := by
    obtain ⟨hmem, ⟨l', hl'⟩, -⟩ := (h.mem_removed j).1 hj
    rw [hremovable j hmem l]
    exact and_iff_left ((hremovable j hmem l').1 hl').2
  have hroot (j : Nat) (hj : j ∈ ranks) : view.RootKept fs path (rank :: report.removed) j ↔
      view.RootAvoids fs j place ∧ view.RootKept without path report.removed j :=
    rootKept_cons_iff hi hcut (hbefore j hj) hsame
  have hfirst : view.RootKept fs path (rank :: report.removed) rank :=
    rootKept_of_later (List.forall_mem_cons.2 ⟨Nat.le_refl _, hlater⟩)
  constructor
  · exact h.removed_sublist.cons_cons rank
  · intro i
    rw [CleanupReport.withRemoved, List.mem_cons, List.mem_cons, h.mem_removed, or_and_right]
    refine or_congr ?_ (and_congr_right fun hmem => ?_)
    · refine ⟨fun hsame => ⟨hsame, ?_⟩, And.left⟩
      subst hsame
      exact ⟨⟨place, hi⟩, hfirst⟩
    · rw [hroot i hmem, exists_congr (hremovable i hmem), exists_and_right, and_assoc]
  · exact h.failures_sublist.cons rank
  · intro f
    simp only [CleanupReport.withRemoved]
    rw [h.mem_failures, List.mem_cons, or_and_right, or_iff_right]
    · refine and_congr_right fun hmem => and_congr_left fun _ => ?_
      rw [hoccupied f.rank hmem f.path, hroot f.rank hmem, and_assoc]
    · rintro ⟨hrank, ⟨hfull, -⟩, -⟩
      exact (hrank ▸ hi).not_occupied hfull
  · exact h.cwd.trans hcut.1
  · intro i hmem l hl
    rcases List.mem_cons.1 hmem with rfl | hmem
    · obtain rfl := hl.unique hi
      by_cases hother : ∃ j ∈ report.removed, view.Removable without path j l
      · obtain ⟨j, hj, hother⟩ := hother
        exact h.gone j hj l hother
      · rw [h.kept l fun j hj hl => hother ⟨j, hj, hl⟩, hcut.2, if_pos rfl]
    · exact h.gone i hmem l ((hsame i hmem l).2 hl)
  · intro l hl
    have hne : place ≠ l := fun hsame => hl rank List.mem_cons_self (hsame ▸ hi)
    rw [h.kept l fun j hj hother =>
      hl j (List.mem_cons_of_mem _ hj) ((hsame j hj l).1 hother), hcut.2, if_neg hne]

end Removes

theorem unhideIn_removes (hv : view.Accepted) (hfree : fs.tree.LinkFree) (hsep : view.Separate fs)
    (hasc : ranks.Pairwise (· < ·))
    (hpaths : ∀ i ∈ ranks, ∃ m, view.markerPath path i = .ok m) :
    ∃ report final, view.unhideIn fs path ranks = (.ok report, final) ∧
      view.Removes fs path ranks report final := by
  induction ranks generalizing fs with
  | nil => exact ⟨.empty, fs, rfl, .nil⟩
  | cons rank later ih =>
    obtain ⟨hbefore, hasc'⟩ := List.pairwise_cons.1 hasc
    have hpaths' := fun i hi => hpaths i (List.mem_cons_of_mem rank hi)
    obtain ⟨m, hmarker⟩ := hpaths rank List.mem_cons_self
    rw [unhideIn, hmarker]
    dsimp only
    rcases FileSystem.removeMarker_cases (markerPath_endsNamed hv hmarker) fs with
      ⟨habsent, hremove⟩ | ⟨place, e, without, hentry, hempty, hremove, hcut⟩ |
      ⟨place, mode, hentry, hfull, hremove⟩
    · obtain ⟨report, final, hrun, hremoves⟩ := ih hfree hsep hasc' hpaths'
      rw [hremove]
      exact ⟨report, final, hrun, hremoves.cons_absent hmarker habsent⟩
    · have hi : view.Removable fs path rank place := ⟨m, e, hmarker, hentry, hempty⟩
      have hne {j : Nat} (hj : j ∈ later) : rank ≠ j := Nat.ne_of_lt (hbefore j hj)
      -- the markers of the other branches lie in other metadata trees, so they are still there
      obtain ⟨report, final, hrun, hremoves⟩ :=
        ih (hcut.linkFree hfree) (hsep.shrinks hcut.shrinks) hasc' hpaths'
      refine ⟨report.withRemoved rank, final, ?_, hremoves.cons_removed hbefore hi hcut
        (fun j hj l => removable_of_cut hv hfree hsep (hne hj) hi hcut)
        (fun j hj marker => occupied_of_cut hv hfree hsep (hne hj) hi hcut)⟩
      rw [hremove]
      dsimp only
      rw [hrun]
      rfl
    · obtain ⟨report, final, hrun, hremoves⟩ := ih hfree hsep hasc' hpaths'
      have hoccupied : view.Occupied fs path rank m.text :=
        ⟨m, place, mode, hmarker, rfl, hentry, hfull⟩
      refine ⟨_, final, ?_, hremoves.cons_occupied hbefore hoccupied⟩
      rw [hremove]
      dsimp only
      rw [hrun]
      rfl

/-- A removal ends at the first branch where the path has no marker path, and what was taken away
before stays away. -/
theorem unhideIn_stopped {front : List Nat} {e : Error}
    (hfront : ∀ i ∈ front, ∃ m, view.markerPath path i = .ok m)
    (hstop : view.markerPath path rank = .error e) (back : List Nat) :
    view.unhideIn fs path (front ++ rank :: back) =
      (.error e, (view.unhideIn fs path front).2) := by
  induction front generalizing fs with
  | nil => rw [List.nil_append, unhideIn, unhideIn, hstop]
  | cons first front ih =>
    have hlater := fun i hi => hfront i (List.mem_cons_of_mem first hi)
    obtain ⟨m, hmarker⟩ := hfront first List.mem_cons_self
    rw [List.cons_append, unhideIn, unhideIn, hmarker]
    dsimp only
    split
    · exact ih hlater
    · rw [ih hlater]
      rfl
    · exact ih hlater
    · rw [ih hlater]
      rfl

theorem unhideIn_ok (fs : FileSystem) (hpaths : ∀ i ∈ ranks, ∃ m, view.markerPath path i = .ok m) :
    ∃ report, (view.unhideIn fs path ranks).1 = .ok report := by
  induction ranks generalizing fs with
  | nil => exact ⟨_, rfl⟩
  | cons rank later ih =>
    have hlater := fun i hi => hpaths i (List.mem_cons_of_mem rank hi)
    obtain ⟨m, hmarker⟩ := hpaths rank List.mem_cons_self
    rw [unhideIn, hmarker]
    dsimp only
    split
    · exact ih fs hlater
    · next without _ =>
      obtain ⟨report, hreport⟩ := ih without hlater
      exact ⟨report.withRemoved rank, by rw [hreport]; rfl⟩
    · exact ih fs hlater
    · next reason _ _ =>
      obtain ⟨report, hreport⟩ := ih fs hlater
      exact ⟨report.withFailure ⟨rank, m.text, reason⟩, by rw [hreport]; rfl⟩

theorem markerPaths_cases (view : UnionView) (path : Bytes) (n : Nat) :
    (∀ i < n, ∃ m, view.markerPath path i = .ok m) ∨
      ∃ i < n, ∃ e, view.markerPath path i = .error e ∧
        ∀ j < i, ∃ m, view.markerPath path j = .ok m := by
  induction n with
  | zero => exact .inl (by simp)
  | succ n ih =>
    rcases ih with hall | ⟨i, hi, hfirst⟩
    · cases hmarker : view.markerPath path n with
      | error e => exact .inr ⟨n, Nat.lt_succ_self n, e, hmarker, hall⟩
      | ok m =>
        refine .inl fun i hi => ?_
        rcases Nat.lt_or_eq_of_le (Nat.le_of_lt_succ hi) with hlt | rfl
        · exact hall i hlt
        · exact ⟨m, hmarker⟩
    · exact .inr ⟨i, Nat.lt_succ_of_lt hi, hfirst⟩

theorem unhide_stopped (hcow : view.cowEnabled = true) {last : Option Nat}
    (hi : i < view.unhideCount last) {e : Error} (herror : view.markerPath path i = .error e)
    (hbefore : ∀ j < i, ∃ m, view.markerPath path j = .ok m) :
    view.unhide fs path last =
      (.error e, if i = 0 then fs else (view.unhide fs path (some (i - 1))).2) := by
  have hlen : i < view.branches.length := Nat.lt_of_lt_of_le hi (view.unhideCount_le last)
  obtain ⟨d, hd⟩ := Nat.exists_eq_add_of_lt hi
  have hsplit : List.range (i + d + 1) =
      List.range i ++ i :: (List.range d).map (fun j => i + (j + 1)) := by
    rw [Nat.add_assoc, List.range_add, List.range_succ_eq_map, List.map_cons, List.map_map]
    rfl
  rw [unhide, if_pos hcow, hd, hsplit,
    unhideIn_stopped (fun j hj => hbefore j (List.mem_range.1 hj)) herror]
  cases i with
  | zero => rfl
  | succ i =>
    rw [if_neg (Nat.succ_ne_zero i), Nat.add_sub_cancel, unhide, if_pos hcow, unhideCount,
      Nat.min_eq_left (Nat.le_of_lt hlen)]

theorem unhide_exactly {home : Option String} {config : Config}
    (haccepted : ofConfig home config = .ok view) (hfree : fs.tree.LinkFree)
    (hsep : view.Separate fs) (path : Bytes) (last : Option Nat) {n : Nat}
    (hn : n = match last with
      | none => view.branches.length
      | some max => min (max + 1) view.branches.length) :
    (view.cowEnabled = false → view.unhide fs path last = (.ok .empty, fs)) ∧
    (view.cowEnabled = true →
      ((∃ e, (view.unhide fs path last).1 = .error e) ↔
        ∃ i < n, ∃ e, view.markerPath path i = .error e) ∧
      (∀ i < n, ∀ e, view.markerPath path i = .error e →
        (∀ j < i, ∃ m, view.markerPath path j = .ok m) →
          view.unhide fs path last =
            (.error e, if i = 0 then fs else (view.unhide fs path (some (i - 1))).2)) ∧
      ((∀ i < n, ∃ m, view.markerPath path i = .ok m) → ∃ report final,
        view.unhide fs path last = (.ok report, final) ∧
          view.Removes fs path (List.range n) report final)) ∧
    ∀ max, view.branches.length ≤ max + 1 →
      view.unhide fs path (some max) = view.unhide fs path none := by
  have hv := accepted_of_ofConfig haccepted
  obtain rfl : view.unhideCount last = n := by
    rw [hn]
    cases last with
    | none => rfl
    | some max => rfl
  refine ⟨fun hcow => unhide_of_disabled hcow fs path last, fun hcow => ?_, fun max hmax => ?_⟩
  · have hrun : view.unhide fs path last =
        view.unhideIn fs path (List.range (view.unhideCount last)) := by
      rw [unhide, if_pos hcow]
    refine ⟨⟨fun h => ?_, fun h => ?_⟩, fun i hi e => unhide_stopped hcow hi, fun hok => ?_⟩
    · obtain ⟨e, herror⟩ := h
      rcases view.markerPaths_cases path (view.unhideCount last) with hok | ⟨i, hi, e', hfirst, -⟩
      · obtain ⟨report, hreport⟩ := unhideIn_ok fs fun i hi => hok i (List.mem_range.1 hi)
        rw [hrun, hreport] at herror
        cases herror
      · exact ⟨i, hi, e', hfirst⟩
    · obtain ⟨i, hi, e, herror⟩ := h
      rcases view.markerPaths_cases path (view.unhideCount last) with
        hok | ⟨j, hj, e', hfirst, hbefore⟩
      · obtain ⟨m, hmarker⟩ := hok i hi
        rw [hmarker] at herror
        cases herror
      · exact ⟨e', by rw [unhide_stopped hcow hj hfirst hbefore]⟩
    · rw [hrun]
      exact unhideIn_removes hv hfree hsep List.pairwise_lt_range fun i hi =>
        hok i (List.mem_range.1 hi)
  · rw [unhide, unhide, unhideCount, unhideCount, Nat.min_eq_right hmax]

/-- The second root leads through the marker of `a` in the first branch, to a branch with a marker
of `a`; the marker in the third branch has content. -/
def nestedConfig : Config :=
  { Config.unset with branches :=
    [⟨"up", .readWrite⟩, ⟨"up/.unionfs/a_HIDDEN~/../../../low", .readOnly⟩, ⟨"base", .readOnly⟩] }

def nestedView : UnionView :=
  { Sample.view with branches := [⟨0, utf8 "up", .readWrite⟩,
    ⟨1, utf8 "up/.unionfs/a_HIDDEN~/../../../low", .readOnly⟩, ⟨2, utf8 "base", .readOnly⟩] }

def nestedTree : Tree :=
  let upper := (Sample.tree.put [utf8 "up", utf8 ".unionfs"] (.dir 0o755)).put
    [utf8 "up", utf8 ".unionfs", utf8 "a_HIDDEN~"] (.dir 0o755)
  let lower := (upper.put [utf8 "low", utf8 ".unionfs"] (.dir 0o755)).put
    [utf8 "low", utf8 ".unionfs", utf8 "a_HIDDEN~"] (.file 0o644 [])
  let base := (lower.put [utf8 "base"] (.dir 0o755)).put
    [utf8 "base", utf8 ".unionfs"] (.dir 0o755)
  (base.put [utf8 "base", utf8 ".unionfs", utf8 "a_HIDDEN~"] (.dir 0o700)).put
    [utf8 "base", utf8 ".unionfs", utf8 "a_HIDDEN~", utf8 "b"] (.file 0o644 [])

theorem unhide_exactly_sample :
    let fs : FileSystem := { tree := nestedTree, cwd := [] }
    (nestedView.unhide fs (utf8 "a") none).1 =
      .ok ⟨[0], [⟨2, utf8 "base/.unionfs/a_HIDDEN~", .system .notEmpty⟩]⟩ ∧
    ∃ report final, nestedView.unhide fs (utf8 "a") none = (.ok report, final) ∧
      nestedView.Removes fs (utf8 "a") [0, 1, 2] report final := by
  intro fs
  have haccepted : ofConfig none nestedConfig = .ok nestedView := by decide +kernel
  have hfree : fs.tree.LinkFree := by decide +kernel
  have hsep : nestedView.Separate fs := separate_of_apart (by decide +kernel)
  have hpaths : ∀ i < 3, ∃ m, nestedView.markerPath (utf8 "a") i = .ok m := by
    intro i hi
    have hcases : i = 0 ∨ i = 1 ∨ i = 2 := by omega
    rcases hcases with rfl | rfl | rfl
    · exact ⟨⟨utf8 "up/.unionfs/a_HIDDEN~", 4096⟩, by decide +kernel⟩
    · exact ⟨⟨utf8 "up/.unionfs/a_HIDDEN~/../../../low/.unionfs/a_HIDDEN~", 4096⟩,
        by decide +kernel⟩
    · exact ⟨⟨utf8 "base/.unionfs/a_HIDDEN~", 4096⟩, by decide +kernel⟩
  have hexactly := unhide_exactly haccepted hfree hsep (utf8 "a") none (show 3 = 3 from rfl)
  exact ⟨by decide +kernel, (hexactly.2.1 rfl).2.2 hpaths⟩

/-- Without the first marker nothing is found any more below the second root. -/
theorem removal_loses_lower_marker :
    let fs : FileSystem := { tree := nestedTree, cwd := [] }
    ofConfig none nestedConfig = .ok nestedView ∧ fs.tree.LinkFree ∧
    (∀ b ∈ nestedView.branches, ∀ c ∈ nestedView.branches, b ≠ c →
      ¬nestedView.metaPlace fs b <+: nestedView.metaPlace fs c) ∧
    nestedView.Removable fs (utf8 "a") 1 [utf8 "low", utf8 ".unionfs", utf8 "a_HIDDEN~"] ∧
    (nestedView.unhide fs (utf8 "a") (some 1)).1 = .ok ⟨[0], []⟩ ∧
    (nestedView.unhide fs (utf8 "a") (some 1)).2.tree.get?
      [utf8 "low", utf8 ".unionfs", utf8 "a_HIDDEN~"] = some (.file 0o644 []) := by
  intro fs
  refine ⟨by decide +kernel, by decide +kernel, by decide +kernel, ?_, by decide +kernel,
    by decide +kernel⟩
  refine ⟨⟨utf8 "up/.unionfs/a_HIDDEN~/../../../low/.unionfs/a_HIDDEN~", 4096⟩,
    .file 0o644 [], by decide +kernel, by decide +kernel, nofun⟩

end Whiteout.UnionView
