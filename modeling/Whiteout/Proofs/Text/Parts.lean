import Mathlib.Data.List.DropRight
import Whiteout.Proofs.Text.RoundTrip
import Whiteout.Text.Pieces

/-!
# Texts put together from parts

Parts without the separator that are joined by it come out again when the text is cut. White space
around a text is what `trim` takes away, so a text is its trimmed form between two blank ends, and
blank ends added to it make no difference.
-/

namespace Whiteout.Text

section

variable {α : Type}

theorem rejoin_append (sep : α) {parts more : List (List α)} (hparts : parts ≠ [])
    (hmore : more ≠ []) :
    rejoin sep (parts ++ more) = rejoin sep parts ++ sep :: rejoin sep more := by
  induction parts with
  | nil => exact absurd rfl hparts
  | cons p others ih =>
    cases others with
    | nil =>
      obtain ⟨q, rest, rfl⟩ := List.exists_cons_of_ne_nil hmore
      rfl
    | cons q rest =>
      have hrest : rejoin sep (q :: rest ++ more) =
          rejoin sep (q :: rest) ++ sep :: rejoin sep more := ih (by simp)
      simp only [List.cons_append, rejoin, List.append_assoc] at hrest ⊢
      rw [hrest]

variable [DecidableEq α] {sep : α} {s before after : List α}

theorem pieces_rejoin {parts : List (List α)} (hparts : parts ≠ [])
    (hfree : ∀ p ∈ parts, sep ∉ p) : pieces sep (rejoin sep parts) = parts := by
  induction parts with
  | nil => exact absurd rfl hparts
  | cons p others ih =>
    have hp : sep ∉ p := hfree p List.mem_cons_self
    cases others with
    | nil => exact pieces_of_not_mem hp
    | cons q rest =>
      have hrest : pieces sep (rejoin sep (q :: rest)) = q :: rest :=
        ih (by simp) fun r hr => hfree r (List.mem_cons_of_mem _ hr)
      rw [rejoin, pieces_append_cons, pieces_of_not_mem hp, hrest, List.singleton_append]

theorem cutLast?_append (h : sep ∉ after) (before : List α) :
    cutLast? sep (before ++ sep :: after) = some (before, after) := by
  induction before with
  | nil => simp [cutLast?, (cutLast?_eq_none_iff sep after).2 h]
  | cons a rest ih => rw [List.cons_append, cutLast?, ih]

theorem cutLast?_eq_some_iff :
    cutLast? sep s = some (before, after) ↔ s = before ++ sep :: after ∧ sep ∉ after := by
  constructor
  · intro h
    induction s generalizing before with
    | nil => cases h
    | cons a rest ih =>
      rw [cutLast?] at h
      cases hrest : cutLast? sep rest with
      | some cut =>
        rw [hrest] at h
        cases h
        obtain ⟨rfl, hafter⟩ := ih hrest
        exact ⟨rfl, hafter⟩
      | none =>
        rw [hrest] at h
        dsimp only at h
        split at h
        · next ha =>
          cases h
          exact ⟨by rw [ha, List.nil_append], (cutLast?_eq_none_iff sep _).1 hrest⟩
        · cases h
  · intro h
    obtain ⟨rfl, hafter⟩ := h
    exact cutLast?_append hafter before

end

section

variable {s left right : List Char} {c : Char}

theorem allBlank_append (s t : List Char) : allBlank (s ++ t) = (allBlank s && allBlank t) :=
  List.all_append

theorem dropWhile_blank (h : allBlank left = true) (s : List Char) :
    (left ++ s).dropWhile isBlank = s.dropWhile isBlank :=
  List.dropWhile_append_of_pos (List.all_eq_true.1 h)

theorem trimEnd_append (s : List Char) (h : allBlank right = true) :
    trimEnd (s ++ right) = trimEnd s := by
  have hright : allBlank right.reverse = true := by rwa [allBlank, List.all_reverse]
  rw [trimEnd, List.reverse_append, dropWhile_blank hright, trimEnd]

theorem trimEnd_cons (h : isBlank c = false) (s : List Char) :
    trimEnd (c :: s) = c :: trimEnd s := by
  have hc : [c].dropWhile isBlank = [c] := List.dropWhile_cons_of_neg (by simp [h])
  rw [trimEnd, List.reverse_cons, List.dropWhile_append, trimEnd]
  split
  · next hnil => rw [List.isEmpty_iff.1 hnil, hc]; rfl
  · rw [List.reverse_append]; rfl

theorem head?_trimEnd (h : isBlank c = false) :
    (trimEnd s).head? = some c ↔ s.head? = some c := by
  constructor
  · intro hc
    obtain ⟨more, hs⟩ : trimEnd s <+: s := List.rdropWhile_prefix isBlank s
    rw [← hs, List.head?_append, hc, Option.some_or]
  · intro hc
    obtain ⟨rest, rfl⟩ := List.head?_eq_some_iff.1 hc
    rw [trimEnd_cons h, List.head?_cons]

theorem trim_cons (h : isBlank c = false) (s : List Char) : trim (c :: s) = c :: trimEnd s := by
  rw [trim, List.dropWhile_cons_of_neg (by simp [h]), trimEnd_cons h]

theorem trim_padded (s : List Char) (hleft : allBlank left = true)
    (hright : allBlank right = true) : trim (left ++ (s ++ right)) = trim s := by
  rw [trim, dropWhile_blank hleft, List.dropWhile_append, trim]
  split
  · next hnil =>
    have hgone : right.dropWhile isBlank = [] :=
      List.dropWhile_eq_nil_iff.2 (List.all_eq_true.1 hright)
    rw [List.isEmpty_iff.1 hnil, hgone]
  · exact trimEnd_append _ hright

theorem exists_padding (s : List Char) : ∃ left right, allBlank left = true ∧
    allBlank right = true ∧ s = left ++ (trim s ++ right) := by
  refine ⟨s.takeWhile isBlank, (s.dropWhile isBlank).rtakeWhile isBlank, List.all_takeWhile,
    List.all_eq_true.2 fun c hc => List.mem_rtakeWhile_imp hc, ?_⟩
  have hend : trim s ++ (s.dropWhile isBlank).rtakeWhile isBlank = s.dropWhile isBlank :=
    List.rdropWhile_append_rtakeWhile
  rw [hend, List.takeWhile_append_dropWhile]

theorem trim_trim (s : List Char) : trim (trim s) = trim s := by
  obtain ⟨left, right, hleft, hright, hs⟩ := exists_padding s
  calc trim (trim s) = trim (left ++ (trim s ++ right)) := (trim_padded _ hleft hright).symm
    _ = trim s := congrArg trim hs.symm

theorem allBlank_trim (s : List Char) : allBlank (trim s) = allBlank s := by
  obtain ⟨left, right, hleft, hright, hs⟩ := exists_padding s
  calc allBlank (trim s) = allBlank (left ++ (trim s ++ right)) := by
        rw [allBlank_append, allBlank_append, hleft, hright, Bool.true_and, Bool.and_true]
    _ = allBlank s := congrArg allBlank hs.symm

theorem mem_of_mem_trim (h : c ∈ trim s) : c ∈ s := by
  obtain ⟨left, right, -, -, hs⟩ := exists_padding s
  rw [hs]
  exact List.mem_append_right _ (List.mem_append_left _ h)

theorem not_mem_of_allBlank (hs : allBlank s = true) (hc : isBlank c = false) : c ∉ s := by
  intro hmem
  have hblank := List.all_eq_true.1 hs c hmem
  rw [hc] at hblank
  cases hblank

end

end Whiteout.Text
