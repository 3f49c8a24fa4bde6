import Whiteout.Proofs.Toml.Quoted
import Whiteout.Toml.Document

/-!
# Settings' values read back

A value that is written for a setting and ended by a line break is read back: a string in any form, a
truth value, a number in decimal digits and an array of nothing. Digits up to a line break are no
date, as those have marks between their digits, and no float, as nothing follows the digits.
-/

namespace Whiteout.Toml

variable {tail s rest digits : Chars} {depth n count : Nat}

/-- What the text of a value is read as, up to the end of the line. -/
structure ReadsValue (text : Chars) (v : Value) : Prop where
  head : ∃ c more, text = c :: more ∧ isSpace c = false
  read : ∀ tail, value maxDepth (text ++ '\n' :: tail) = some (v, '\n' :: tail)

theorem value_scalar {c : Char} (hitems : c ≠ '[') (hpairs : c ≠ '{') (rest : Chars) (depth : Nat) :
    value (depth + 1) (c :: rest) = scalar (c :: rest) := by
  rw [value.eq_def]
  split
  · next heq => simp at heq
  · next heq =>
    obtain rfl := Nat.succ.inj heq
    split
    · next h => exact absurd (List.cons_eq_cons.1 h).1 hitems
    · next h => exact absurd (List.cons_eq_cons.1 h).1 hpairs
    · rfl

theorem written_head (s : Chars) : ∃ quote more, written s = quote :: more ∧
    (quote = '"' ∨ quote = '\'') := by
  rw [written]
  cases Form.choose s with
  | basic => exact ⟨_, _, rfl, .inl rfl⟩
  | literal => exact ⟨_, _, rfl, .inr rfl⟩
  | basicLines => exact ⟨_, _, rfl, .inl rfl⟩
  | literalLines => exact ⟨_, _, rfl, .inr rfl⟩

theorem readsValue_written (s : Chars) : ReadsValue (written s) (.string s) := by
  obtain ⟨quote, more, hhead, hquote⟩ := written_head s
  refine ⟨⟨quote, more, hhead, by rcases hquote with rfl | rfl <;> decide⟩, fun tail => ?_⟩
  have hread : quotedString (written s ++ '\n' :: tail) = some (s, '\n' :: tail) :=
    quotedString_written (by simp) (by simp) s
  have hitems : quote ≠ '[' := by rcases hquote with rfl | rfl <;> decide
  have hpairs : quote ≠ '{' := by rcases hquote with rfl | rfl <;> decide
  rw [hhead, List.cons_append] at hread ⊢
  rw [maxDepth, value_scalar hitems hpairs, scalar, hread]

theorem readsValue_true : ReadsValue "true".toList (.boolean true) :=
  ⟨⟨'t', _, rfl, by decide⟩, fun _ => value_scalar (by decide) (by decide) _ _⟩

theorem readsValue_false : ReadsValue "false".toList (.boolean false) :=
  ⟨⟨'f', _, rfl, by decide⟩, fun _ => value_scalar (by decide) (by decide) _ _⟩

theorem readsValue_nothing : ReadsValue "[]".toList (.array []) :=
  ⟨⟨'[', _, rfl, by decide⟩, fun _ => rfl⟩

inductive DigitsOnly (tail : Chars) : Chars → Prop
  | lineEnd : DigitsOnly tail ('\n' :: tail)
  | digit {c : Char} {rest : Chars} (hc : isDigit c = true) (hrest : DigitsOnly tail rest) :
      DigitsOnly tail (c :: rest)

namespace DigitsOnly

theorem of_append {digits : Chars} (h : ∀ c ∈ digits, isDigit c = true) (tail : Chars) :
    DigitsOnly tail (digits ++ '\n' :: tail) := by
  induction digits with
  | nil => exact .lineEnd
  | cons c rest ih =>
    exact .digit (h c List.mem_cons_self) (ih fun d hd => h d (List.mem_cons_of_mem _ hd))

variable (h : DigitsOnly tail s)
include h

theorem fixed (hread : fixed count s = some (n, rest)) : DigitsOnly tail rest := by
  induction count generalizing s n with
  | zero =>
    rw [Toml.fixed] at hread
    cases hread
    exact h
  | succ count ih =>
    cases h with
    | lineEnd => cases hread
    | @digit c more hc hmore =>
      rw [Toml.fixed, if_pos hc, Option.map_eq_some_iff] at hread
      obtain ⟨⟨m, after⟩, hafter, heq⟩ := hread
      cases heq
      exact ih hmore hafter

theorem fixedIn {low high : Nat} (hread : fixedIn count low high s = some (n, rest)) :
    DigitsOnly tail rest :=
  h.fixed (Option.filter_eq_some_iff.1 hread).1

theorem mark_eq_none {c : Char} (hdigit : isDigit c = false) (hline : c ≠ '\n') :
    mark c s = none := by
  cases h with
  | lineEnd => exact if_neg hline
  | digit hc =>
    refine if_neg ?_
    rintro rfl
    rw [hdigit] at hc
    cases hc

theorem dateTime_eq_none : dateTime s = none := by
  have hdate : date s = none := by
    cases hread : Toml.fixed 4 s with
    | none => simp [date, hread]
    | some p =>
      have hmark : mark '-' p.2 = none := (h.fixed hread).mark_eq_none (by decide) (by decide)
      simp [date, hread, hmark]
  have htime : time s = none := by
    cases hread : Toml.fixedIn 2 0 23 s with
    | none => simp [time, hread]
    | some p =>
      have hmark : mark ':' p.2 = none := (h.fixedIn hread).mark_eq_none (by decide) (by decide)
      simp [time, hread, hmark]
  rw [dateTime, hdate, htime]

end DigitsOnly

theorem isDigit_of_mem_toDigits {c : Char} (h : c ∈ Nat.toDigits 10 n) : isDigit c = true :=
  Nat.isDigit_of_mem_toDigits (by decide) (by decide) h

theorem hexValue?_of_isDigit {c : Char} (h : isDigit c = true) :
    hexValue? c = some (c.toNat - '0'.toNat) := by
  simp only [isDigit, Bool.and_eq_true, decide_eq_true_eq] at h
  rw [hexValue?, if_pos h]
  rfl

theorem foldl_digits (h : ∀ c ∈ digits, isDigit c = true) (start : Nat) :
    digits.foldl (fun n c => n * 10 + (hexValue? c).getD 0) start =
      Nat.ofDigitChars 10 digits start := by
  induction digits generalizing start with
  | nil => rfl
  | cons c rest ih =>
    rw [List.foldl_cons, ih (fun d hd => h d (List.mem_cons_of_mem _ hd)), Nat.ofDigitChars_cons,
      hexValue?_of_isDigit (h c List.mem_cons_self), Option.getD_some, Nat.mul_comm]

theorem numeral_toDigits (n : Nat) : numeral 10 (Nat.toDigits 10 n) = n := by
  rw [numeral, foldl_digits fun c => isDigit_of_mem_toDigits,
    Nat.ofDigitChars_toDigits (by decide) (by decide)]

theorem eq_zero_of_toDigits (h : Nat.toDigits 10 n = '0' :: rest) : n = 0 := by
  induction n using Nat.strongRecOn generalizing rest with
  | ind n ih =>
    rw [Nat.toDigits_eq_if (by decide)] at h
    split at h
    · next hsmall => exact Nat.digitChar_eq_zero.1 (List.cons_eq_cons.1 h).1
    · next hlarge =>
      -- the first digit is that of a tenth of the number
      obtain ⟨c, more, hmore⟩ :=
        List.exists_cons_of_ne_nil (Nat.toDigits_ne_nil (n := n / 10) (b := 10))
      rw [hmore, List.cons_append] at h
      obtain ⟨rfl, -⟩ := List.cons_eq_cons.1 h
      have hzero := ih (n / 10) (by omega) hmore
      omega

theorem parted_digits (h : ∀ c ∈ digits, isDigit c = true) (hne : digits ≠ []) (tail : Chars) :
    parted isDigit (digits ++ '\n' :: tail) = some (digits, '\n' :: tail) := by
  induction digits with
  | nil => exact absurd rfl hne
  | cons c rest ih =>
    have hc : isDigit c = true := h c List.mem_cons_self
    cases rest with
    | nil =>
      have hline : isDigit '\n' = false := by decide
      simp [parted, hc, hline]
    | cons d more =>
      have hd : isDigit d = true := h d (by simp)
      have hrest := ih (fun e he => h e (List.mem_cons_of_mem _ he)) (by simp)
      rw [List.cons_append] at hrest
      have hscore : d ≠ '_' := by
        rintro rfl
        cases hd
      rw [List.cons_append, List.cons_append, parted.eq_def]
      dsimp only
      rw [if_pos hc]
      split
      · next heq => exact absurd (List.cons_eq_cons.1 heq).1 hscore
      · next heq =>
        obtain ⟨rfl, rfl⟩ := List.cons_eq_cons.1 heq
        rw [if_pos hd, hrest]
        rfl
      · next heq => cases heq

structure Decimal (c : Char) (more : Chars) : Prop where
  first : isDigit c = true
  others : ∀ d ∈ more, isDigit d = true
  alone : c = '0' → more = []

theorem exists_decimal (n : Nat) : ∃ c more, Nat.toDigits 10 n = c :: more ∧ Decimal c more := by
  obtain ⟨c, more, hmore⟩ := List.exists_cons_of_ne_nil (Nat.toDigits_ne_nil (n := n) (b := 10))
  refine ⟨c, more, hmore, isDigit_of_mem_toDigits (hmore ▸ List.mem_cons_self), fun d hd => ?_, ?_⟩
  · exact isDigit_of_mem_toDigits (hmore ▸ List.mem_cons_of_mem _ hd)
  · rintro rfl
    obtain rfl := eq_zero_of_toDigits hmore
    cases hmore
    rfl

namespace Decimal

variable {c : Char} {more : Chars} (h : Decimal c more) (tail : Chars)
include h

theorem ne {d : Char} (hd : isDigit d = false) : c ≠ d := by
  rintro rfl
  have hc := h.first
  rw [hd] at hc
  cases hc

theorem all_digits : ∀ d ∈ c :: more, isDigit d = true := by
  intro d hd
  rcases List.mem_cons.1 hd with rfl | hd
  · exact h.first
  · exact h.others d hd

theorem decimal_eq : decimal (c :: more ++ '\n' :: tail) = some (c :: more, '\n' :: tail) := by
  by_cases hc : c = '0'
  · rw [hc, h.alone hc]
    rfl
  · rw [List.cons_append, decimal.eq_def]
    simp only [hc, List.cons.injEq, false_and, imp_self, implies_true]
    exact parted_digits h.all_digits (List.cons_ne_nil c more) tail

theorem sign_eq : sign (c :: more ++ '\n' :: tail) = (false, c :: more ++ '\n' :: tail) := by
  rw [List.cons_append, sign.eq_def]
  split
  · next heq => exact absurd (List.cons_eq_cons.1 heq).1 (h.ne (by decide))
  · next heq => exact absurd (List.cons_eq_cons.1 heq).1 (h.ne (by decide))
  · rfl

theorem word_eq_none {first : Char} (hfirst : isDigit first = false) (letters : Chars) :
    word (first :: letters) (c :: more ++ '\n' :: tail) = none := by
  simp [word, (h.ne hfirst).symm]

theorem float_eq_none : float (c :: more ++ '\n' :: tail) = none := by
  have hdecimal : decimalFloat (c :: more ++ '\n' :: tail) = none := by
    rw [decimalFloat, h.sign_eq]
    dsimp only
    rw [h.decimal_eq]
    rfl
  have hinfinite : infinite (c :: more ++ '\n' :: tail) = none := by
    rw [infinite, h.sign_eq, h.word_eq_none tail (by decide), h.word_eq_none tail (by decide)]
    rfl
  rw [float, hdecimal, hinfinite]
  rfl

theorem integer_eq : integer (c :: more ++ '\n' :: tail) =
    (signed false (numeral 10 (c :: more))).map fun n => (n, '\n' :: tail) := by
  have hsecond {d : Char} {rest : Chars} (hd : d ≠ '\n')
      (heq : c :: more ++ '\n' :: tail = '0' :: d :: rest) : False := by
    obtain ⟨rfl, hrest⟩ := List.cons_eq_cons.1 heq
    rw [h.alone rfl] at hrest
    exact hd (List.cons_eq_cons.1 hrest).1.symm
  rw [integer.eq_def]
  split
  · next heq => exact (hsecond (by decide) heq).elim
  · next heq => exact (hsecond (by decide) heq).elim
  · next heq => exact (hsecond (by decide) heq).elim
  · rw [h.sign_eq]
    dsimp only
    rw [h.decimal_eq]

theorem scalar_eq : scalar (c :: more ++ '\n' :: tail) =
    (signed false (numeral 10 (c :: more))).map fun n => (.integer n, '\n' :: tail) := by
  have hstring : quotedString (c :: more ++ '\n' :: tail) = none := by
    rw [List.cons_append, quotedString.eq_def]
    split
    · next heq => exact absurd (List.cons_eq_cons.1 heq).1 (h.ne (by decide))
    · next heq => exact absurd (List.cons_eq_cons.1 heq).1 (h.ne (by decide))
    · rfl
  have hboolean : boolean (c :: more ++ '\n' :: tail) = none := by
    rw [boolean, h.word_eq_none tail (by decide), h.word_eq_none tail (by decide)]
    rfl
  have hdate := (DigitsOnly.of_append h.all_digits tail).dateTime_eq_none
  rw [scalar, hstring, hboolean, number, hdate, h.float_eq_none, h.integer_eq]
  cases signed false (numeral 10 (c :: more)) <;> rfl

end Decimal

theorem readsValue_toDigits (h : n ≤ maxInteger) :
    ReadsValue (Nat.toDigits 10 n) (.integer n) := by
  obtain ⟨c, more, hdigits, hdecimal⟩ := exists_decimal n
  have hspace : isSpace c = false := by
    simp [isSpace, hdecimal.ne (d := ' ') (by decide), hdecimal.ne (d := '\t') (by decide)]
  refine ⟨⟨c, more, hdigits, hspace⟩, fun tail => ?_⟩
  have hnumeral : numeral 10 (c :: more) = n := hdigits ▸ numeral_toDigits n
  have hread := hdecimal.scalar_eq tail
  rw [hnumeral, signed, if_neg Bool.false_ne_true, if_pos h] at hread
  rw [hdigits, List.cons_append, maxDepth,
    value_scalar (hdecimal.ne (by decide)) (hdecimal.ne (by decide))]
  exact hread

end Whiteout.Toml
