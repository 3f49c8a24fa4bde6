import Whiteout.Text.Utf8

/-!
# Sorted lists of located values

A location is the list of names leading to a place from the top. Locations are compared name by
name and names byte by byte, so in a sorted list a directory stands right before its content.
-/

namespace Whiteout

abbrev Name := Bytes

abbrev Location := List Name

namespace Location

instance : Std.Irrefl (α := Location) (· < ·) := ⟨List.lt_irrefl⟩

theorem lt_of_not_lt {a b : Location} (h : ¬a < b) (hne : a ≠ b) : b < a :=
  Classical.byContradiction fun h' => hne (List.le_antisymm (List.not_lt.1 h') (List.not_lt.1 h))

end Location

namespace Sorted

variable {α : Type}

def Ascending (l : List (Location × α)) : Prop := l.Pairwise fun x y => x.1 < y.1

def insert (place : Location) (a : α) : List (Location × α) → List (Location × α)
  | [] => [(place, a)]
  | x :: rest =>
    if place < x.1 then (place, a) :: x :: rest
    else if place = x.1 then (place, a) :: rest
    else x :: insert place a rest

def find? (place : Location) : List (Location × α) → Option α
  | [] => none
  | x :: rest => if x.1 = place then some x.2 else find? place rest

theorem mem_insert {l : Location} {a : α} {xs : List (Location × α)} {x : Location × α} :
    x ∈ insert l a xs → x = (l, a) ∨ x ∈ xs := by
  induction xs with
  | nil => simp [insert]
  | cons y ys ih =>
    intro h
    simp only [insert] at h
    split at h
    · exact List.mem_cons.1 h
    · split at h
      · exact (List.mem_cons.1 h).imp id (List.mem_cons_of_mem _)
      · rcases List.mem_cons.1 h with h | h
        · exact Or.inr (h ▸ List.mem_cons_self ..)
        · exact (ih h).imp id (List.mem_cons_of_mem _)

theorem mem_insert_self (l : Location) (a : α) (xs : List (Location × α)) : (l, a) ∈ insert l a xs := by
  induction xs with
  | nil => simp [insert]
  | cons y ys ih =>
    simp only [insert]
    split
    · simp
    · split <;> simp [ih]

theorem mem_insert_of_ne {l : Location} {a : α} {xs : List (Location × α)} {x : Location × α}
    (hx : x ∈ xs) (hne : x.1 ≠ l) : x ∈ insert l a xs := by
  induction xs with
  | nil => cases hx
  | cons y ys ih =>
    simp only [insert]
    rcases List.mem_cons.1 hx with rfl | hx
    · split
      · simp
      · split
        · next h => exact absurd h.symm hne
        · simp
    · split
      · simp [hx]
      · split <;> simp [hx, ih hx]

theorem ascending_insert {l : Location} {a : α} {xs : List (Location × α)} (h : Ascending xs) :
    Ascending (insert l a xs) := by
  induction xs with
  | nil => simp [insert, Ascending]
  | cons y ys ih =>
    obtain ⟨hy, hys⟩ := List.pairwise_cons.1 h
    simp only [insert]
    split
    · next hlt =>
      refine List.pairwise_cons.2 ⟨fun x hx => ?_, h⟩
      rcases List.mem_cons.1 hx with rfl | hx
      · exact hlt
      · exact List.lt_trans hlt (hy x hx)
    · next hnlt =>
      split
      · next heq => subst heq; exact List.pairwise_cons.2 ⟨hy, hys⟩
      · next hne =>
        refine List.pairwise_cons.2 ⟨fun x hx => ?_, ih hys⟩
        rcases mem_insert hx with rfl | hx
        · exact Location.lt_of_not_lt hnlt hne
        · exact hy x hx

theorem find?_insert (l : Location) (a : α) (xs : List (Location × α)) (h : Ascending xs) (m : Location) :
    find? m (insert l a xs) = if l = m then some a else find? m xs := by
  induction xs with
  | nil => simp [insert, find?]
  | cons y ys ih =>
    obtain ⟨hy, hys⟩ := List.pairwise_cons.1 h
    simp only [insert]
    split
    · simp [find?]
    · split
      · next heq => subst heq; simp only [find?]; split <;> simp_all
      · next hne =>
        simp only [find?, ih hys]
        by_cases hym : y.1 = m
        · have : l ≠ m := fun e => hne (e.trans hym.symm)
          simp [hym, this]
        · simp [hym]

theorem find?_eq_some_iff {xs : List (Location × α)} (h : Ascending xs) {m : Location} {a : α} :
    find? m xs = some a ↔ (m, a) ∈ xs := by
  induction xs with
  | nil => simp [find?]
  | cons y ys ih =>
    obtain ⟨hy, hys⟩ := List.pairwise_cons.1 h
    simp only [find?]
    split
    · next hym =>
      subst hym
      constructor
      · intro h'; cases h'; simp
      · intro h'
        rcases List.mem_cons.1 h' with h' | h'
        · rw [← h']
        · exact absurd (hy _ h') (List.lt_irrefl _)
    · next hym =>
      rw [ih hys]
      constructor
      · exact fun h' => List.mem_cons_of_mem _ h'
      · intro h'
        rcases List.mem_cons.1 h' with h' | h'
        · exact absurd (by rw [← h']) hym
        · exact h'

theorem find?_filter (keep : Location → Bool) (xs : List (Location × α)) (m : Location) :
    find? m (xs.filter fun x => keep x.1) = if keep m then find? m xs else none := by
  induction xs with
  | nil => simp [find?]
  | cons y ys ih =>
    by_cases hk : keep y.1
    · simp only [List.filter_cons, hk, if_true, find?, ih]
      by_cases hym : y.1 = m
      · subst hym; simp [hk]
      · simp [hym]
    · rw [List.filter_cons, if_neg hk, ih, find?]
      by_cases hym : y.1 = m
      · subst hym; simp [hk]
      · simp [hym]

theorem eq_of_find?_eq {xs ys : List (Location × α)} (hx : Ascending xs) (hy : Ascending ys)
    (h : ∀ m, find? m xs = find? m ys) : xs = ys := by
  induction xs generalizing ys with
  | nil =>
    cases ys with
    | nil => rfl
    | cons y ys => have := h y.1; simp [find?] at this
  | cons x xs ih =>
    obtain ⟨hx1, hxs⟩ := List.pairwise_cons.1 hx
    cases ys with
    | nil => have := h x.1; simp [find?] at this
    | cons y ys =>
      obtain ⟨hy1, hys⟩ := List.pairwise_cons.1 hy
      have hmem : ∀ {z : Location × α}, z ∈ x :: xs ↔ z ∈ y :: ys := by
        intro z
        rw [show z = (z.1, z.2) from rfl, ← find?_eq_some_iff hx, ← find?_eq_some_iff hy, h]
      have hxy : x = y := by
        rcases List.mem_cons.1 (hmem.1 (List.mem_cons_self ..)) with e | hxin
        · exact e
        · rcases List.mem_cons.1 (hmem.2 (List.mem_cons_self ..)) with e | hyin
          · exact e.symm
          · exact absurd (List.lt_trans (hx1 _ hyin) (hy1 _ hxin)) (List.lt_irrefl _)
      subst hxy
      have hrest : ∀ m, find? m xs = find? m ys := by
        intro m
        by_cases hm : x.1 = m
        · subst hm
          have none_of {zs : List (Location × α)} (hz : ∀ z ∈ zs, x.1 < z.1) : find? x.1 zs = none := by
            clear ih hx hy h hx1 hxs hy1 hys hmem
            induction zs with
            | nil => rfl
            | cons z zs ihz =>
              have hlt := hz z (List.mem_cons_self ..)
              have hne : z.1 ≠ x.1 := fun e => List.lt_irrefl _ (e ▸ hlt)
              simp only [find?, hne, if_false]
              exact ihz fun w hw => hz w (List.mem_cons_of_mem _ hw)
          rw [none_of hx1, none_of hy1]
        · have := h m; simpa [find?, hm] using this
      rw [ih hxs hys hrest]

end Sorted

end Whiteout
