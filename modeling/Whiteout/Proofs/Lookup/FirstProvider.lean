import Whiteout.Proofs.Lookup.Scan

/-!
# The first branch that provides a path

What a scan answers is settled by the first branch that it does not pass: one that provides the path
is found, one whose place for the path cannot be spelled is an error, and at one that only hides the
path, as at the end, nothing is found. A branch passed before takes no part, so a scan that starts
further on, but not behind the branch found, finds the same one.

The scan asks for an entry before it asks for a marker. So no branch above the one found hides the
path, but that branch itself may: where the entry and its marker stand in one branch the path is
found and hidden at once. A path is never both exactly when no branch hides an entry of its own.
-/

namespace Whiteout.UnionView

open Text (utf8)

variable {view : UnionView} {fs : FileSystem} {path : Bytes} {rank start later : Nat}

/-- The scan passes every branch before the one of this rank. -/
def Comes (view : UnionView) (fs : FileSystem) (path : Bytes) (start rank : Nat) : Prop :=
  start ≤ rank ∧ ∀ j, start ≤ j → j < rank → view.Passes fs path j

theorem Provides.lt_length (h : view.Provides fs path rank) : rank < view.branches.length := by
  obtain ⟨b, -, hb, -⟩ := h
  exact (List.getElem?_eq_some_iff.1 hb).1

section

variable (hv : view.Accepted)
include hv

theorem found_iff_comes : view.findBranch fs path start = .ok (some rank) ↔
    view.Comes fs path start rank ∧ view.Provides fs path rank := by
  rw [findBranch_eq_some_iff hv, Comes, and_assoc, and_congr_right_iff]
  exact fun _ => And.comm

theorem failed_iff_comes {e : Error} : view.findBranch fs path start = .error e ↔
    ∃ r b, view.Comes fs path start r ∧ view.branches[r]? = some b ∧
      view.entryPath b path = .error e := by
  rw [findBranch_eq_error_iff hv]
  constructor
  · rintro ⟨r, b, hle, hb, he, hpassed⟩
    exact ⟨r, b, ⟨hle, hpassed⟩, hb, he⟩
  · rintro ⟨r, b, ⟨hle, hpassed⟩, hb, he⟩
    exact ⟨r, b, hle, hb, he, hpassed⟩

theorem none_iff_comes : view.findBranch fs path start = .ok none ↔
    (∀ r, view.Comes fs path start r → ¬view.Provides fs path r) ∧
      ∀ r b e, view.Comes fs path start r → view.branches[r]? = some b →
        view.entryPath b path ≠ .error e := by
  constructor
  · intro hnone
    refine ⟨fun r hcomes hprovides => ?_, fun r b e hcomes hb he => ?_⟩
    · cases hnone.symm.trans ((found_iff_comes hv).2 ⟨hcomes, hprovides⟩)
    · cases hnone.symm.trans ((failed_iff_comes hv).2 ⟨r, b, hcomes, hb, he⟩)
  · intro h
    obtain ⟨hnot, hspelled⟩ := h
    cases hanswer : view.findBranch fs path start with
    | error e =>
      obtain ⟨r, b, hcomes, hb, he⟩ := (failed_iff_comes hv).1 hanswer
      exact absurd he (hspelled r b e hcomes hb)
    | ok answer =>
      cases answer with
      | none => rfl
      | some r =>
        obtain ⟨hcomes, hprovides⟩ := (found_iff_comes hv).1 hanswer
        exact absurd hprovides (hnot r hcomes)

theorem found_from_later (h : view.findBranch fs path start = .ok (some rank))
    (hle : start ≤ later) (hle' : later ≤ rank) :
    view.findBranch fs path later = .ok (some rank) := by
  obtain ⟨⟨-, hpassed⟩, -⟩ := (found_iff_comes hv).1 h
  rw [← h, findBranch_of_passed hv hle fun j hj hj' => hpassed j hj (by omega)]

theorem not_provides_of_none (hcow : view.cowEnabled = false)
    (h : view.findBranch fs path start = .ok none) (hle : start ≤ rank) :
    ¬view.Provides fs path rank := by
  intro hprovides
  obtain ⟨stop, hpassed, hend | ⟨-, hhidden⟩⟩ := findBranch_eq_none hv h
  · have hlt := hprovides.lt_length
    exact hprovides.not_lacks (hpassed rank hle (by omega)).1
  · rw [isHidden_of_disabled hcow] at hhidden
    cases hhidden

theorem answer_eq_first (hcow : view.cowEnabled = false) {answer : Option Nat}
    (h : view.findBranch fs path start = .ok answer) :
    answer = some rank ↔ start ≤ rank ∧ view.Provides fs path rank ∧
      ∀ j, start ≤ j → j < rank → ¬view.Provides fs path j := by
  constructor
  · rintro rfl
    obtain ⟨⟨hle, hpassed⟩, hprovides⟩ := (found_iff_comes hv).1 h
    exact ⟨hle, hprovides, fun j hj hj' hthere => hthere.not_lacks (hpassed j hj hj').1⟩
  · rintro ⟨hle, hprovides, hfirst⟩
    cases answer with
    | none => exact absurd hprovides (not_provides_of_none hv hcow h hle)
    | some other =>
      obtain ⟨⟨hle', hpassed⟩, hother⟩ := (found_iff_comes hv).1 h
      rcases Nat.lt_trichotomy rank other with hlt | rfl | hlt
      · exact absurd (hpassed rank hle hlt).1 hprovides.not_lacks
      · rfl
      · exact absurd hother (hfirst other hle' hlt)

end

theorem nextRank_of_lt {rank : Nat} (h : rank + 1 < UInt64.size) : nextRank rank = rank + 1 :=
  Nat.mod_eq_of_lt h

theorem below_of_findBelow (hv : view.Accepted) {fs : FileSystem} {path : Bytes} {rank r : Nat}
    (hrank : rank + 1 < UInt64.size) (hbelow : view.findBelow fs path rank = .ok (some r)) :
    rank < r := by
  have hstart := (findBranch_eq_some hv hbelow).1
  rwa [nextRank_of_lt hrank] at hstart

-- behind the last rank that a word holds comes, by overflow, the first branch again
example (view : UnionView) (fs : FileSystem) (path : Bytes) :
    view.findBelow fs path (UInt64.size - 1) = view.findBranch fs path 0 := rfl

theorem findBranch_settled {home : Option String} {config : Config}
    (haccepted : ofConfig home config = .ok view) (fs : FileSystem) (path : Bytes) (start : Nat) :
    (∀ r, view.findBranch fs path start = .ok (some r) ↔
      view.Comes fs path start r ∧ view.Provides fs path r) ∧
    (∀ e, view.findBranch fs path start = .error e ↔
      ∃ r b, view.Comes fs path start r ∧ view.branches[r]? = some b ∧
        view.entryPath b path = .error e) ∧
    (view.findBranch fs path start = .ok none ↔
      (∀ r, view.Comes fs path start r → ¬view.Provides fs path r) ∧
      ∀ r b e, view.Comes fs path start r → view.branches[r]? = some b →
        view.entryPath b path ≠ .error e) ∧
    (∀ r later, view.findBranch fs path start = .ok (some r) → start ≤ later → later ≤ r →
      view.findBranch fs path later = .ok (some r)) ∧
    (∀ rank r, rank + 1 < UInt64.size → view.findBelow fs path rank = .ok (some r) → rank < r) ∧
    (view.cowEnabled = false → ∀ answer, view.findBranch fs path start = .ok answer →
      ∀ r, answer = some r ↔ start ≤ r ∧ view.Provides fs path r ∧
        ∀ j, start ≤ j → j < r → ¬view.Provides fs path j) := by
  have hv := accepted_of_ofConfig haccepted
  exact ⟨fun _ => found_iff_comes hv, fun _ => failed_iff_comes hv, none_iff_comes hv,
    fun _ _ hfound hle hle' => found_from_later hv hfound hle hle',
    fun _ _ hrank hbelow => below_of_findBelow hv hrank hbelow,
    fun hcow _ hanswer _ => answer_eq_first hv hcow hanswer⟩

theorem findBranch_settled_sample :
    Sample.view.Comes Sample.session.fs (utf8 "a") 0 1 ∧
    Sample.view.findBranch Sample.session.fs (utf8 "a") 1 = .ok (some 1) ∧
    (∃ r, Sample.view.findBelow Sample.session.fs (utf8 "a") 0 = .ok (some r) ∧ 0 < r) ∧
    ¬∃ r, Sample.view.Comes Sample.session.fs (utf8 "b") 0 r ∧
      Sample.view.Provides Sample.session.fs (utf8 "b") r := by
  have hfound : Sample.view.findBranch Sample.session.fs (utf8 "a") 0 = .ok (some 1) := by
    decide +kernel
  have hbelow : Sample.view.findBelow Sample.session.fs (utf8 "a") 0 = .ok (some 1) := by
    decide +kernel
  have hnone : Sample.view.findBranch Sample.session.fs (utf8 "b") 0 = .ok none := by
    decide +kernel
  have ha := findBranch_settled Sample.ofConfig_config Sample.session.fs (utf8 "a") 0
  have hb := findBranch_settled Sample.ofConfig_config Sample.session.fs (utf8 "b") 0
  refine ⟨((ha.1 1).1 hfound).1, ha.2.2.2.1 1 1 hfound (by decide) (by decide),
    ⟨1, hbelow, ha.2.2.2.2.1 0 1 (by decide) hbelow⟩, ?_⟩
  rintro ⟨r, hcomes, hprovides⟩
  exact (hb.2.2.1.1 hnone).1 r hcomes hprovides

/-- What the scan finds is hidden in no branch above; it is never hidden in its own branch either
exactly if no branch hides an entry that it provides. -/
theorem found_visible_iff {home : Option String} {config : Config}
    (haccepted : ofConfig home config = .ok view) (fs : FileSystem) (path : Bytes) :
    (∀ start rank, view.findBranch fs path start = .ok (some rank) →
      ∀ j, start ≤ j → j < rank → view.isHidden fs path j = false) ∧
    ((∀ start rank, view.findBranch fs path start = .ok (some rank) →
      ∀ j, start ≤ j → j ≤ rank → view.isHidden fs path j = false) ↔
        ∀ rank, view.Provides fs path rank → view.isHidden fs path rank = false) := by
  have hv := accepted_of_ofConfig haccepted
  have habove : ∀ start rank, view.findBranch fs path start = .ok (some rank) →
      ∀ j, start ≤ j → j < rank → view.isHidden fs path j = false := by
    intro start rank hfound j hj hj'
    obtain ⟨-, -, hbefore⟩ := (findBranch_eq_some_iff hv).1 hfound
    exact (hbefore j hj hj').2
  refine ⟨habove, fun hvisible rank hprovides => ?_, fun hown start rank hfound j hj hj' => ?_⟩
  · -- a scan that starts at a branch with the entry finds it there
    exact hvisible rank rank (findBranch_of_provides hv hprovides) rank (Nat.le_refl _)
      (Nat.le_refl _)
  · rcases Nat.lt_or_eq_of_le hj' with hlt | rfl
    · exact habove start rank hfound j hj hlt
    · exact hown j ((findBranch_eq_some_iff hv).1 hfound).2.1

theorem found_visible_iff_sample : Sample.view.isHidden Sample.session.fs (utf8 "a") 0 = false :=
  (found_visible_iff Sample.ofConfig_config Sample.session.fs (utf8 "a")).1 0 1 (by decide +kernel)
    0 (Nat.le_refl _) (by decide)

attribute [local instance] Host.plain in
/-- The file `a` of the lower branch is found there beside the marker that hides it there. -/
theorem found_though_hidden :
    Sample.view.findBranch (Sample.view.hide Sample.session (utf8 "a") 1 .file).2.fs (utf8 "a") 0 =
      .ok (some 1) ∧
    Sample.view.isHidden (Sample.view.hide Sample.session (utf8 "a") 1 .file).2.fs (utf8 "a") 1 =
      true :=
  ⟨by decide +kernel, by decide +kernel⟩

end Whiteout.UnionView
