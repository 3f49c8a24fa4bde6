import Whiteout.Json.Reader
import Whiteout.Proofs.Toml.Scalar

/-!
# What is written is read back

A string is read back as it was written, whatever follows it, and so is a number in decimal digits
that a comma follows. An object is read back if its members are, and an array if its items are.
-/

namespace Whiteout.Json

open Toml (exists_decimal)

variable {s tail rest : Chars} {c : Char} {v : Value} {item : Reader Value} {fuel : Nat}
  {m : Option Chars × Value}

def Value.ofNat (n : Nat) : Value := if maxNatural < n then .unkept else .natural n

theorem skipSpace_cons (h : isSpace c = false) (rest : Chars) :
    skipSpace (c :: rest) = c :: rest := by
  simp [skipSpace, h]

theorem hexValue?_lowerDigit : ∀ n < 16, hexValue? (lowerDigit n) = some n := by decide

theorem exists_piece (c : Char) : ∃ piece,
    (∀ rest, stringPieces .text (escaped c ++ rest) = prepend piece (stringPieces .text rest)) ∧
      ∀ pieces, spell (piece :: pieces) = (spell pieces).map (c :: ·) := by
  by_cases hshort : c ∈ ['"', '\\', '\x08', '\x0c', '\n', '\r', '\t']
  · refine ⟨.char c, fun rest => ?_, fun pieces => rfl⟩
    simp only [List.mem_cons, List.not_mem_nil, or_false] at hshort
    rcases hshort with rfl | rfl | rfl | rfl | rfl | rfl | rfl <;> rfl
  · simp only [List.mem_cons, List.not_mem_nil, or_false, not_or] at hshort
    obtain ⟨hquote, hslash, hback, hfeed, hline, hreturn, htab⟩ := hshort
    by_cases hcontrol : c.toNat < 0x20
    · have hescaped : escaped c = ['\\', 'u', '0', '0', lowerDigit (c.toNat / 16),
          lowerDigit (c.toNat % 16)] := by
        simp only [escaped, hquote, hslash, hback, hfeed, hline, hreturn, htab, if_false, hcontrol,
          if_true]
      refine ⟨.unit c.toNat, fun rest => ?_, fun pieces => ?_⟩
      · have hhigh := hexValue?_lowerDigit (c.toNat / 16) (by omega)
        have hlow := hexValue?_lowerDigit (c.toNat % 16) (by omega)
        have hzero : hexValue? '0' = some 0 := rfl
        have hsum : c.toNat / 16 * 16 + c.toNat % 16 = c.toNat := Nat.div_add_mod' _ _
        rw [hescaped]
        simp [stringPieces, shortEscape?, hzero, hhigh, hlow, hsum]
      · have hhigh : isHigh c.toNat = false := by simp [isHigh]; omega
        have hlow : isLow c.toNat = false := by simp [isLow]; omega
        rw [spell.eq_def]
        simp [hhigh, hlow, Char.ofNat_toNat]
    · have hescaped : escaped c = [c] := by
        simp only [escaped, hquote, hslash, hback, hfeed, hline, hreturn, htab, if_false, hcontrol]
      refine ⟨.char c, fun rest => ?_, fun pieces => rfl⟩
      rw [hescaped]
      simp [stringPieces, hquote, hslash, hcontrol]

theorem stringPieces_escaped (s rest : Chars) : ∃ pieces,
    stringPieces .text (s.flatMap escaped ++ '"' :: rest) = some (pieces, rest) ∧
      spell pieces = some s := by
  induction s with
  | nil => exact ⟨[], rfl, rfl⟩
  | cons c s ih =>
    obtain ⟨pieces, hread, hspell⟩ := ih
    obtain ⟨piece, hpiece, hspells⟩ := exists_piece c
    refine ⟨piece :: pieces, ?_, by rw [hspells, hspell]; rfl⟩
    rw [List.flatMap_cons, List.append_assoc, hpiece, hread]
    rfl

theorem written_append (s rest : Chars) :
    written s ++ rest = '"' :: (s.flatMap escaped ++ '"' :: rest) := by
  simp [written]

theorem string_written (s rest : Chars) : string (written s ++ rest) = some (some s, rest) := by
  obtain ⟨pieces, hread, hspell⟩ := stringPieces_escaped s rest
  rw [written_append, string, hread, ← hspell]
  rfl

theorem value_written (depth : Nat) (s rest : Chars) :
    value (depth + 1) (written s ++ rest) = some (.string (some s), rest) := by
  have hread := string_written s rest
  rw [written_append] at hread ⊢
  rw [value, skipSpace_cons rfl]
  simp [hread]

theorem foldl_digits (digits : Chars) (start : Nat) :
    digits.foldl (fun n c => n * 10 + (c.toNat - 48)) start = Nat.ofDigitChars 10 digits start := by
  induction digits generalizing start with
  | nil => rfl
  | cons c rest ih => rw [List.foldl_cons, ih, Nat.ofDigitChars_cons, Nat.mul_comm]; rfl

theorem whole_toDigits (n : Nat) (rest : Chars) :
    whole (Nat.toDigits 10 n ++ ',' :: rest) = some (n, ',' :: rest) := by
  obtain ⟨c, more, hdigits, hdecimal⟩ := exists_decimal n
  have hall : ∀ d ∈ c :: more, isDigit d = true := hdecimal.all_digits
  have hread : digits (c :: more ++ ',' :: rest) = some (c :: more, ',' :: rest) := by
    have hcomma : isDigit ',' = false := rfl
    rw [digits, List.takeWhile_append_of_pos hall, List.dropWhile_append_of_pos hall]
    simp [hcomma]
  have hvalue : (c :: more).foldl (fun n c => n * 10 + (c.toNat - 48)) 0 = n := by
    rw [foldl_digits, ← hdigits, Nat.ofDigitChars_toDigits (by decide) (by decide)]
  rw [hdigits, whole, hread]
  split
  · next heq => cases heq
  · next heq =>
    simp only [Option.some.injEq, Prod.mk.injEq, List.cons.injEq] at heq
    obtain ⟨⟨rfl, hmore⟩, -⟩ := heq
    rw [hdecimal.alone rfl] at hmore
    cases hmore
  · next heq =>
    cases heq
    rw [hvalue]

theorem value_toDigits (depth n : Nat) (rest : Chars) :
    value (depth + 1) (Nat.toDigits 10 n ++ ',' :: rest) = some (.ofNat n, ',' :: rest) := by
  obtain ⟨c, more, hdigits, hdecimal⟩ := exists_decimal n
  have hwhole := whole_toDigits n rest
  rw [hdigits, List.cons_append] at hwhole ⊢
  have hne {d : Char} (hd : isDigit d = false) : c ≠ d := hdecimal.ne hd
  have hspace : isSpace c = false := by
    simp [isSpace, hne (d := ' ') rfl, hne (d := '\n') rfl, hne (d := '\t') rfl,
      hne (d := '\r') rfl]
  have hnumber : number (c :: (more ++ ',' :: rest)) = some (.ofNat n, ',' :: rest) := by
    rw [number]
    · simp [hwhole, fraction, exponent, Value.ofNat]
    · intro rest' heq
      exact hne rfl (List.cons_eq_cons.1 heq).1
  rw [value, skipSpace_cons hspace]
  simp only [hne (d := '[') rfl, hne (d := '\x7b') rfl, hne (d := '"') rfl, hne (d := 't') rfl,
    hne (d := 'f') rfl, hne (d := 'n') rfl, if_false, hnumber]

theorem member_written (key : Chars) {text : Chars} (h : item (text ++ tail) = some (v, tail)) :
    member item (written key ++ ':' :: (text ++ tail)) = some ((some key, v), tail) := by
  have hread := string_written key (':' :: (text ++ tail))
  rw [written_append] at hread ⊢
  rw [member, skipSpace_cons rfl, hread]
  simp only [skipSpace_cons (show isSpace ':' = false from rfl), h, Option.map_some]

theorem objectMembers_next (h : member item s = some (m, ',' :: rest)) :
    objectMembers item (fuel + 1) s =
      (objectMembers item fuel rest).map fun (ms, r) => (m :: ms, r) := by
  rw [objectMembers, h]
  rfl

theorem objectMembers_last (h : member item s = some (m, '\x7d' :: rest)) :
    objectMembers item (fuel + 1) s = some ([m], rest) := by
  rw [objectMembers, h]
  rfl

theorem arrayItems_map {α : Type} {text : α → Chars} {v : α → Value} {xs : List α}
    (hne : xs ≠ []) (h : ∀ x ∈ xs, ∀ tail, item (text x ++ tail) = some (v x, tail))
    (hfuel : xs.length ≤ fuel) :
    arrayItems item fuel ([','].intercalate (xs.map text) ++ ']' :: tail) =
      some (xs.map v, tail) := by
  induction xs generalizing fuel with
  | nil => exact absurd rfl hne
  | cons x xs ih =>
    obtain ⟨fuel, rfl⟩ := Nat.exists_eq_add_one_of_ne_zero (Nat.ne_zero_of_lt hfuel)
    have hx := h x List.mem_cons_self
    cases xs with
    | nil =>
      have hjoined : [','].intercalate ([x].map text) ++ ']' :: tail = text x ++ ']' :: tail := by
        simp [List.intercalate]
      rw [hjoined, arrayItems, hx]
      rfl
    | cons y ys =>
      have hrest := ih (List.cons_ne_nil y ys) (fun z hz => h z (List.mem_cons_of_mem x hz))
        (Nat.le_of_succ_le_succ hfuel)
      rw [List.map_cons, List.map_cons, List.intercalate_cons_cons, List.append_assoc,
        List.append_assoc, arrayItems, hx, List.singleton_append]
      rw [List.map_cons] at hrest
      simp only [skipSpace_cons (show isSpace ',' = false from rfl), hrest, Option.map_some,
        List.map_cons]

theorem value_object {depth : Nat} {members : List (Option Chars × Value)} {more : Chars}
    (hread : ∀ fuel, objectMembers (value depth) (fuel + members.length) s = some (members, rest))
    (hlen : members.length ≤ s.length) (hhead : s = '"' :: more) :
    value (depth + 1) ('\x7b' :: s) = some (.object members, rest) := by
  have hobject : object (value depth) s = some (.object members, rest) := by
    have hmembers := hread (s.length + 1 - members.length)
    rw [Nat.sub_add_cancel (Nat.le_succ_of_le hlen)] at hmembers
    subst hhead
    rw [object, skipSpace_cons rfl]
    exact congrArg (Option.map fun x => (Value.object x.1, x.2)) hmembers
  rw [value, skipSpace_cons rfl]
  simp [hobject]

theorem exists_intercalate (text : Chars) (texts : List Chars) :
    ∃ later, [','].intercalate (text :: texts) = text ++ later := by
  cases texts with
  | nil => exact ⟨[], by simp⟩
  | cons t ts => exact ⟨_, by rw [List.intercalate_cons_cons, List.append_assoc]⟩

theorem length_le_intercalate {α : Type} (text : α → Chars) (xs : List α) :
    xs.length ≤ ([','].intercalate (xs.map text)).length + 1 := by
  induction xs with
  | nil => exact Nat.zero_le _
  | cons x xs ih =>
    cases xs with
    | nil => simp
    | cons y ys =>
      rw [List.map_cons] at ih
      rw [List.map_cons, List.map_cons, List.intercalate_cons_cons]
      simp only [List.length_cons, List.length_append, List.length_nil] at ih ⊢
      omega

theorem parse_objects {α : Type} {text : α → Chars} {v : α → Value} {xs : List α}
    (hhead : ∀ x, ∃ more, text x = '\x7b' :: more)
    (h : ∀ x depth tail, value (depth + 2) (text x ++ tail) = some (v x, tail)) :
    parse ('[' :: ([','].intercalate (xs.map text) ++ [']'])) = some (.array (xs.map v)) := by
  have harray (depth : Nat) : array (value (depth + 2)) ([','].intercalate (xs.map text) ++ [']']) =
      some (.array (xs.map v), []) := by
    cases xs with
    | nil => rfl
    | cons x xs =>
      obtain ⟨more, hmore⟩ : ∃ more,
          [','].intercalate ((x :: xs).map text) ++ [']'] = '\x7b' :: more := by
        obtain ⟨more, hmore⟩ := hhead x
        obtain ⟨later, hlater⟩ := exists_intercalate (text x) (xs.map text)
        exact ⟨more ++ later ++ [']'], by rw [List.map_cons, hlater, hmore]; rfl⟩
      have hfuel : (x :: xs).length ≤
          ([','].intercalate ((x :: xs).map text) ++ [']']).length + 1 := by
        have hlen := length_le_intercalate text (x :: xs)
        rw [List.length_append]
        omega
      have hitems :=
        @arrayItems_map [] _ _ _ text v _ (List.cons_ne_nil x xs) (fun y _ => h y depth) hfuel
      rw [hmore] at hitems ⊢
      rw [array, skipSpace_cons rfl]
      exact congrArg (Option.map fun x => (Value.array x.1, x.2)) hitems
  have hvalue (depth : Nat) :
      value (depth + 3) ('[' :: ([','].intercalate (xs.map text) ++ [']'])) =
        some (.array (xs.map v), []) := by
    rw [value, skipSpace_cons rfl]
    simp [harray]
  rw [parse, List.length_cons, List.length_append]
  simp only [List.length_singleton, hvalue]
  rfl

end Whiteout.Json
