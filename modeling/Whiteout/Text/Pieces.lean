/-!
# Cutting a list at a separator

`pieces sep` cuts at every `sep`; there is always at least one piece, and putting `sep` back between
them gives the list again. `cutLast? sep` cuts once, at the last `sep`. `trim` drops the white space
at both ends of a text and keeps it inside; white space are the twenty-five characters with the
property White_Space of Unicode.
-/

namespace Whiteout.Text

variable {α : Type}

def pieces [DecidableEq α] (sep : α) : List α → List (List α)
  | [] => [[]]
  | a :: rest =>
    if a = sep then [] :: pieces sep rest
    else match pieces sep rest with
      | [] => [[a]]
      | first :: others => (a :: first) :: others

def rejoin (sep : α) : List (List α) → List α
  | [] => []
  | [p] => p
  | p :: q :: others => p ++ sep :: rejoin sep (q :: others)

theorem pieces_ne_nil [DecidableEq α] (sep : α) (s : List α) : pieces sep s ≠ [] := by
  cases s with
  | nil => simp [pieces]
  | cons a rest =>
    simp only [pieces]
    split
    · simp
    · split <;> simp

theorem rejoin_cons_cons (sep a : α) (p : List α) (ps : List (List α)) :
    rejoin sep ((a :: p) :: ps) = a :: rejoin sep (p :: ps) := by
  cases ps <;> rfl

theorem rejoin_pieces [DecidableEq α] (sep : α) (s : List α) : rejoin sep (pieces sep s) = s := by
  induction s with
  | nil => rfl
  | cons a rest ih =>
    obtain ⟨p, ps, hp⟩ := List.exists_cons_of_ne_nil (pieces_ne_nil sep rest)
    rw [hp] at ih
    by_cases ha : a = sep
    · simp only [pieces, ha, if_true, hp, rejoin, ih, List.nil_append]
    · simp only [pieces, ha, if_false, hp, rejoin_cons_cons, ih]

theorem not_mem_piece [DecidableEq α] {sep : α} {s p : List α} (h : p ∈ pieces sep s) : sep ∉ p := by
  induction s generalizing p with
  | nil => simp_all [pieces]
  | cons a rest ih =>
    obtain ⟨q, qs, hq⟩ := List.exists_cons_of_ne_nil (pieces_ne_nil sep rest)
    by_cases ha : a = sep
    · rw [pieces, if_pos ha] at h
      rcases List.mem_cons.1 h with rfl | h
      · simp
      · exact ih h
    · rw [pieces, if_neg ha, hq] at h
      rcases List.mem_cons.1 h with rfl | h
      · have := ih (hq ▸ List.mem_cons_self ..)
        simp [Ne.symm ha, this]
      · exact ih (hq ▸ List.mem_cons_of_mem _ h)

theorem mem_of_mem_piece [DecidableEq α] {sep b : α} {s p : List α} (h : p ∈ pieces sep s) (hb : b ∈ p) : b ∈ s := by
  induction s generalizing p with
  | nil => simp_all [pieces]
  | cons a rest ih =>
    obtain ⟨q, qs, hq⟩ := List.exists_cons_of_ne_nil (pieces_ne_nil sep rest)
    by_cases ha : a = sep
    · rw [pieces, if_pos ha] at h
      rcases List.mem_cons.1 h with rfl | h
      · cases hb
      · exact List.mem_cons_of_mem _ (ih h hb)
    · rw [pieces, if_neg ha, hq] at h
      rcases List.mem_cons.1 h with rfl | h
      · rcases List.mem_cons.1 hb with rfl | hb
        · exact List.mem_cons_self ..
        · exact List.mem_cons_of_mem _ (ih (hq ▸ List.mem_cons_self ..) hb)
      · exact List.mem_cons_of_mem _ (ih (hq ▸ List.mem_cons_of_mem _ h) hb)

theorem pieces_append_cons [DecidableEq α] (sep : α) (s t : List α) :
    pieces sep (s ++ sep :: t) = pieces sep s ++ pieces sep t := by
  induction s with
  | nil => simp [pieces]
  | cons a rest ih =>
    obtain ⟨q, qs, hq⟩ := List.exists_cons_of_ne_nil (pieces_ne_nil sep rest)
    rw [hq] at ih
    by_cases ha : a = sep <;> simp [pieces, ha, hq, ih]

def cutLast? [DecidableEq α] (sep : α) : List α → Option (List α × List α)
  | [] => none
  | a :: rest =>
    match cutLast? sep rest with
    | some (before, after) => some (a :: before, after)
    | none => if a = sep then some ([], rest) else none

theorem cutLast?_eq_none_iff [DecidableEq α] (sep : α) (s : List α) : cutLast? sep s = none ↔ sep ∉ s := by
  induction s with
  | nil => simp [cutLast?]
  | cons a rest ih =>
    simp only [cutLast?, List.mem_cons, not_or]
    cases h : cutLast? sep rest with
    | none =>
      have hr : sep ∉ rest := ih.1 h
      by_cases ha : a = sep
      · simp [ha]
      · simp [ha, hr, Ne.symm ha]
    | some p =>
      have hs : sep ∈ rest := Classical.byContradiction fun hn => by simp [ih.2 hn] at h
      simp [hs]

def isBlank (c : Char) : Bool :=
  (0x09 ≤ c.toNat && c.toNat ≤ 0x0D) || c.toNat == 0x20 || c.toNat == 0x85 || c.toNat == 0xA0 ||
    c.toNat == 0x1680 || (0x2000 ≤ c.toNat && c.toNat ≤ 0x200A) || c.toNat == 0x2028 ||
    c.toNat == 0x2029 || c.toNat == 0x202F || c.toNat == 0x205F || c.toNat == 0x3000

def trimEnd (s : List Char) : List Char := (s.reverse.dropWhile isBlank).reverse

def trim (s : List Char) : List Char := trimEnd (s.dropWhile isBlank)

def allBlank (s : List Char) : Bool := s.all isBlank

end Whiteout.Text
