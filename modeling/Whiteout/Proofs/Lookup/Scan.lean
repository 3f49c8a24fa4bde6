import Whiteout.Proofs.Marker.Growth

/-!
# The scan for the branch that provides a path

The scan goes from rank to rank. It stops at the first branch that provides the path, at one that
lacks it but hides it, or at a place that cannot be spelled; it passes a branch that lacks the path
and does not hide it.
-/

namespace Whiteout.UnionView

open BoundedPath (joined)

variable {view : UnionView} {fs : FileSystem} {path : Bytes} {rank start : Nat}

def Provides (view : UnionView) (fs : FileSystem) (path : Bytes) (rank : Nat) : Prop :=
  ∃ b full, view.branches[rank]? = some b ∧ view.entryPath b path = .ok full ∧
    (fs.probe full.text).isSome = true

def Lacks (view : UnionView) (fs : FileSystem) (path : Bytes) (rank : Nat) : Prop :=
  ∃ b full, view.branches[rank]? = some b ∧ view.entryPath b path = .ok full ∧
    fs.probe full.text = none

def Passes (view : UnionView) (fs : FileSystem) (path : Bytes) (rank : Nat) : Prop :=
  view.Lacks fs path rank ∧ view.isHidden fs path rank = false

theorem entryPath_eq_ok_iff {b : Branch} (hroot : b.root ≠ []) {full : BoundedPath} :
    view.entryPath b path = .ok full ↔ path ≠ [] ∧
      (joined b.root path).length + 1 ≤ view.maxPathLen ∧
      full = ⟨joined b.root path, view.maxPathLen⟩ := by
  rw [entryPath, BoundedPath.build_pair_eq_ok_iff]
  simp [hroot]

theorem Provides.not_lacks (h : view.Provides fs path rank) : ¬view.Lacks fs path rank := by
  intro hlacks
  rcases hlacks with ⟨b, full, hb, hfull, hnone⟩
  obtain ⟨b', full', hb', hfull', hsome⟩ := h
  cases hb.symm.trans hb'
  cases hfull.symm.trans hfull'
  rw [hnone] at hsome
  cases hsome

theorem findBranch_of_le (h : view.branches.length ≤ start) :
    view.findBranch fs path start = .ok none := by
  rw [findBranch, List.drop_eq_nil_of_le h, findAmong]

theorem findBranch_of_getElem? (hv : view.Accepted) {b : Branch}
    (hb : view.branches[start]? = some b) :
    view.findBranch fs path start = match view.entryPath b path with
      | .error e => .error e
      | .ok full =>
        if (fs.probe full.text).isSome then .ok (some start)
        else if view.isHidden fs path start then .ok none
        else view.findBranch fs path (start + 1) := by
  obtain ⟨hlt, hget⟩ := List.getElem?_eq_some_iff.1 hb
  rw [findBranch, List.drop_eq_getElem_cons hlt, hget, findAmong, hv.ranked start b hb]
  rfl

theorem findBranch_of_provides (hv : view.Accepted) (h : view.Provides fs path start) :
    view.findBranch fs path start = .ok (some start) := by
  obtain ⟨b, full, hb, hfull, hsome⟩ := h
  rw [findBranch_of_getElem? hv hb, hfull]
  simp [hsome]

theorem findBranch_of_hidden (hv : view.Accepted) (h : view.Lacks fs path start)
    (hhidden : view.isHidden fs path start = true) : view.findBranch fs path start = .ok none := by
  obtain ⟨b, full, hb, hfull, hnone⟩ := h
  rw [findBranch_of_getElem? hv hb, hfull]
  simp [hnone, hhidden]

theorem findBranch_of_passes (hv : view.Accepted) (h : view.Passes fs path start) :
    view.findBranch fs path start = view.findBranch fs path (start + 1) := by
  obtain ⟨⟨b, full, hb, hfull, hnone⟩, hvisible⟩ := h
  rw [findBranch_of_getElem? hv hb, hfull]
  simp [hnone, hvisible]

theorem findBranch_of_error (hv : view.Accepted) {b : Branch} (hb : view.branches[start]? = some b)
    {e : Error} (he : view.entryPath b path = .error e) :
    view.findBranch fs path start = .error e := by
  rw [findBranch_of_getElem? hv hb, he]

theorem round_cases (view : UnionView) (fs : FileSystem) (path : Bytes) (start : Nat) :
    view.branches.length ≤ start ∨ view.Provides fs path start ∨
      view.Lacks fs path start ∧ view.isHidden fs path start = true ∨ view.Passes fs path start ∨
      ∃ b e, view.branches[start]? = some b ∧ view.entryPath b path = .error e := by
  cases hb : view.branches[start]? with
  | none => exact .inl (List.getElem?_eq_none_iff.1 hb)
  | some b =>
    cases hfull : view.entryPath b path with
    | error e => exact .inr (.inr (.inr (.inr ⟨b, e, rfl, hfull⟩)))
    | ok full =>
      cases hprobe : fs.probe full.text with
      | some kind => exact .inr (.inl ⟨b, full, hb, hfull, by simp [hprobe]⟩)
      | none =>
        have hlacks : view.Lacks fs path start := ⟨b, full, hb, hfull, hprobe⟩
        cases hhidden : view.isHidden fs path start with
        | true => exact .inr (.inr (.inl ⟨hlacks, rfl⟩))
        | false => exact .inr (.inr (.inr (.inl ⟨hlacks, hhidden⟩)))

theorem findBranch_of_passed (hv : view.Accepted) {stop : Nat} (hle : start ≤ stop)
    (h : ∀ j, start ≤ j → j < stop → view.Passes fs path j) :
    view.findBranch fs path start = view.findBranch fs path stop := by
  induction hle with
  | refl => rfl
  | @step stop hle ih =>
    have hlast : view.Passes fs path stop := h stop hle (Nat.lt_succ_self stop)
    rw [ih fun j hj hj' => h j hj (Nat.lt_succ_of_lt hj'), findBranch_of_passes hv hlast]

inductive Ends (view : UnionView) (fs : FileSystem) (path : Bytes) (stop : Nat) :
    Except Error (Option Nat) → Prop
  | past (hend : view.branches.length ≤ stop) : Ends view fs path stop (.ok none)
  | found (hprovides : view.Provides fs path stop) : Ends view fs path stop (.ok (some stop))
  | hidden (hlacks : view.Lacks fs path stop) (hhidden : view.isHidden fs path stop = true) :
      Ends view fs path stop (.ok none)
  | failed {b : Branch} {e : Error} (hb : view.branches[stop]? = some b)
      (he : view.entryPath b path = .error e) : Ends view fs path stop (.error e)

theorem passes_or_ends (hv : view.Accepted) (fs : FileSystem) (path : Bytes) (start : Nat) :
    view.Passes fs path start ∨ view.Ends fs path start (view.findBranch fs path start) := by
  rcases round_cases view fs path start with hend | hprovides | ⟨hlacks, hhidden⟩ | hpasses |
    ⟨b, e, hb, he⟩
  · exact .inr (findBranch_of_le hend ▸ .past hend)
  · exact .inr (findBranch_of_provides hv hprovides ▸ .found hprovides)
  · exact .inr (findBranch_of_hidden hv hlacks hhidden ▸ .hidden hlacks hhidden)
  · exact .inl hpasses
  · exact .inr (findBranch_of_error hv hb he ▸ .failed hb he)

/-- A scan passes branches up to the one that it stops at. -/
theorem exists_stop (hv : view.Accepted) (fs : FileSystem) (path : Bytes) (start : Nat) :
    ∃ stop, start ≤ stop ∧ (∀ j, start ≤ j → j < stop → view.Passes fs path j) ∧
      view.Ends fs path stop (view.findBranch fs path start) := by
  generalize hleft : view.branches.length - start = left
  induction left generalizing start with
  | zero =>
    have hend : view.branches.length ≤ start := by omega
    exact ⟨start, Nat.le_refl _, fun j hj hj' => by omega, findBranch_of_le hend ▸ .past hend⟩
  | succ left ih =>
    rcases passes_or_ends hv fs path start with hpasses | hends
    · obtain ⟨stop, hle, hpassed, hends⟩ := ih (start + 1) (by omega)
      rw [← findBranch_of_passes hv hpasses] at hends
      refine ⟨stop, by omega, fun j hj hj' => ?_, hends⟩
      by_cases hfirst : j = start
      · exact hfirst ▸ hpasses
      · exact hpassed j (by omega) hj'
    · exact ⟨start, Nat.le_refl _, fun j hj hj' => by omega, hends⟩

theorem findBranch_eq_some (hv : view.Accepted)
    (h : view.findBranch fs path start = .ok (some rank)) :
    start ≤ rank ∧ view.Provides fs path rank ∧
      ∀ j, start ≤ j → j < rank → view.Passes fs path j := by
  obtain ⟨stop, hle, hpassed, hends⟩ := exists_stop hv fs path start
  rw [h] at hends
  cases hends with
  | found hprovides => exact ⟨hle, hprovides, hpassed⟩

theorem findBranch_eq_none (hv : view.Accepted) (h : view.findBranch fs path start = .ok none) :
    ∃ stop, (∀ j, start ≤ j → j < stop → view.Passes fs path j) ∧
      (view.branches.length ≤ stop ∨
        view.Lacks fs path stop ∧ view.isHidden fs path stop = true) := by
  obtain ⟨stop, -, hpassed, hends⟩ := exists_stop hv fs path start
  rw [h] at hends
  cases hends with
  | past hend => exact ⟨stop, hpassed, .inl hend⟩
  | hidden hlacks hhidden => exact ⟨stop, hpassed, .inr ⟨hlacks, hhidden⟩⟩

theorem findBranch_eq_some_iff (hv : view.Accepted) :
    view.findBranch fs path start = .ok (some rank) ↔ start ≤ rank ∧ view.Provides fs path rank ∧
      ∀ j, start ≤ j → j < rank → view.Passes fs path j := by
  constructor
  · exact findBranch_eq_some hv
  · intro h
    obtain ⟨hle, hprovides, hpassed⟩ := h
    rw [findBranch_of_passed hv hle hpassed, findBranch_of_provides hv hprovides]

theorem findBranch_eq_error_iff (hv : view.Accepted) {e : Error} :
    view.findBranch fs path start = .error e ↔ ∃ r b, start ≤ r ∧ view.branches[r]? = some b ∧
      view.entryPath b path = .error e ∧ ∀ j, start ≤ j → j < r → view.Passes fs path j := by
  constructor
  · intro h
    obtain ⟨stop, hle, hpassed, hends⟩ := exists_stop hv fs path start
    rw [h] at hends
    cases hends with
    | failed hb he => exact ⟨stop, _, hle, hb, he, hpassed⟩
  · intro h
    obtain ⟨r, b, hle, hb, he, hpassed⟩ := h
    rw [findBranch_of_passed hv hle hpassed, findBranch_of_error hv hb he]

end Whiteout.UnionView
