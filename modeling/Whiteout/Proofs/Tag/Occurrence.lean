import Whiteout.UnionView

/-!
# Names that have no tag of their own

A tag is found where it stands first, and counts if it ends the name there and is not all of it. A
name is `Untagged` if, once the tag is put behind it, the tag is found where it was put. Such a
name holds no tag anywhere, so it is never taken for a marker's name, and its marker gives it back.
-/

namespace Whiteout.Tag

variable {name tag : Bytes} {n : Nat}

def OccursAt (tag name : Bytes) (n : Nat) : Prop := tag <+: name.drop n

instance (tag name : Bytes) (n : Nat) : Decidable (OccursAt tag name n) :=
  inferInstanceAs (Decidable (_ <+: _))

theorem occursAt_append (front back : Bytes) :
    OccursAt tag (front ++ tag ++ back) front.length := by
  rw [OccursAt, List.append_assoc, List.drop_left]
  exact List.prefix_append tag back

theorem firstOffset?_eq_some_iff : firstOffset? tag name = some n ↔
    n ≤ name.length ∧ OccursAt tag name n ∧ ∀ m < n, ¬OccursAt tag name m := by
  induction name generalizing n with
  | nil =>
    simp only [firstOffset?, Option.ite_none_right_eq_some, Option.some.injEq, List.isEmpty_iff]
    constructor
    · rintro ⟨rfl, rfl⟩
      exact ⟨Nat.le_refl _, List.prefix_refl _, nofun⟩
    · rintro ⟨hle, hoccurs, -⟩
      obtain rfl := Nat.le_zero.1 hle
      exact ⟨List.prefix_nil.1 hoccurs, rfl⟩
  | cons b rest ih =>
    have hstart : tag.isPrefixOf (b :: rest) = true ↔ OccursAt tag (b :: rest) 0 :=
      List.isPrefixOf_iff_prefix
    rw [firstOffset?]
    split
    · next hpre =>
      rw [Option.some_inj]
      constructor
      · rintro rfl
        exact ⟨Nat.zero_le _, hstart.1 hpre, nofun⟩
      · rintro ⟨-, -, hfirst⟩
        apply Classical.byContradiction
        intro hne
        exact hfirst 0 (Nat.pos_of_ne_zero (Ne.symm hne)) (hstart.1 hpre)
    · next hpre =>
      have hlater : ¬OccursAt tag (b :: rest) 0 := mt hstart.2 hpre
      cases n with
      | zero => simp [hlater]
      | succ n =>
        -- one byte further on, and not at the start, is what the rest is asked for
        have hshift : (∀ m < n + 1, ¬OccursAt tag (b :: rest) m) ↔ ∀ m < n, ¬OccursAt tag rest m := by
          rw [Nat.forall_lt_succ_left]
          exact and_iff_right hlater
        have hmap : (firstOffset? tag rest).map (· + 1) = some (n + 1) ↔
            firstOffset? tag rest = some n := by simp
        rw [hmap, hshift, List.length_cons, Nat.succ_le_succ_iff]
        exact ih

theorem offset?_eq_some_iff : offset? name tag = some n ↔
    tag ≠ [] ∧ 0 < n ∧ (∃ front, front.length = n ∧ name = front ++ tag) ∧
      ∀ m < n, ¬OccursAt tag name m := by
  by_cases htag : tag = []
  · simp [offset?, htag]
  · have hoffset : offset? name tag = some n ↔
        firstOffset? tag name = some n ∧ 0 < n ∧ n + tag.length = name.length := by
      simp [offset?, htag, Option.filter_eq_some_iff]
    rw [hoffset, firstOffset?_eq_some_iff]
    constructor
    · rintro ⟨⟨hle, hoccurs, hfirst⟩, hpos, hlength⟩
      have hend : name.drop n = tag := (hoccurs.eq_of_length (by simp; omega)).symm
      have hname : name = name.take n ++ tag := by rw [← hend, List.take_append_drop]
      exact ⟨htag, hpos, ⟨name.take n, List.length_take_of_le hle, hname⟩, hfirst⟩
    · rintro ⟨-, hpos, ⟨front, rfl, rfl⟩, hfirst⟩
      have hoccurs : OccursAt tag (front ++ tag) front.length := by
        simpa using occursAt_append front []
      exact ⟨⟨by simp, hoccurs, hfirst⟩, hpos, by simp⟩

def Untagged (tag name : Bytes) : Prop := offset? (name ++ tag) tag = some name.length

instance (tag name : Bytes) : Decidable (Untagged tag name) := inferInstanceAs (Decidable (_ = _))

namespace Untagged

theorem not_infix (h : Untagged tag name) : ¬tag <:+: name := by
  intro hinfix
  rcases hinfix with ⟨front, back, rfl⟩
  obtain ⟨htag, -, -, hfirst⟩ := offset?_eq_some_iff.1 h
  have hpos : 0 < tag.length := List.length_pos_iff.2 htag
  apply hfirst front.length (by simp only [List.length_append]; omega)
  rw [List.append_assoc]
  exact occursAt_append front (back ++ tag)

theorem ne_nil (h : Untagged tag name) : name ≠ [] := by
  obtain ⟨-, hpos, -⟩ := offset?_eq_some_iff.1 h
  exact List.ne_nil_of_length_pos hpos

theorem ne_tagged (h : Untagged tag name) (other : Bytes) : name ≠ other ++ tag := by
  intro hname
  subst hname
  exact h.not_infix ⟨other, [], by simp⟩

theorem strip?_eq_none (h : Untagged tag name) : strip? name tag = none := by
  rw [strip?, Option.map_eq_none_iff]
  apply Option.eq_none_iff_forall_ne_some.2
  intro n hn
  obtain ⟨-, -, ⟨front, -, hname⟩, -⟩ := offset?_eq_some_iff.1 hn
  exact h.ne_tagged front hname

theorem strip?_tagged (h : Untagged tag name) : strip? (name ++ tag) tag = some name := by
  rw [strip?, h, Option.map_some, List.take_left]

end Untagged

theorem strip?_eq_some_iff {hidden : Bytes} :
    strip? name tag = some hidden ↔ name = hidden ++ tag ∧ Untagged tag hidden := by
  constructor
  · intro h
    obtain ⟨n, hn, rfl⟩ := Option.map_eq_some_iff.1 h
    obtain ⟨-, -, ⟨front, rfl, rfl⟩, -⟩ := offset?_eq_some_iff.1 hn
    rw [List.take_left]
    exact ⟨rfl, hn⟩
  · intro h
    rcases h with ⟨rfl, huntagged⟩
    exact huntagged.strip?_tagged

end Whiteout.Tag
