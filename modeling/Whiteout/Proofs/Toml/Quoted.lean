import Whiteout.Toml.Quoted

/-!
# Strings read back

A written string is read back as it was, whatever form was chosen for it, as long as no quote comes
right behind it. In the basic forms each character's text is read as that character. In the forms
of three quotes no three quotes in a row stand before the closing ones: where the reader takes
quotes for the closing ones, at most two of the text are left, and these it gives back.
-/

namespace Whiteout.Toml

variable {s tail rest : Chars} {c quote : Char} {seen : Nat}

theorem hexValue?_upperDigit : ∀ n < 16, hexValue? (upperDigit n) = some n := by decide

theorem scalar?_toNat (c : Char) : scalar? c.toNat = some c := by
  have hvalid : c.toNat.isValidChar := c.valid
  rw [scalar?, if_pos hvalid, Char.ofNat_toNat]

/-- A character that a text may hold as it is: in a form of lines a line break too. -/
def Kept (lines : Bool) (c : Char) : Prop := isControl c = false ∨ lines = true ∧ c = '\n'

namespace Kept

variable {lines : Bool} (h : Kept lines c)
include h

theorem ne_return : c ≠ '\r' := by
  rintro rfl
  rcases h with hcontrol | ⟨-, hbreak⟩
  · cases hcontrol
  · cases hbreak

theorem not_refused : (isControl c && !(lines && c == '\n')) = false := by
  rcases h with hcontrol | ⟨hlines, hbreak⟩
  · rw [hcontrol, Bool.false_and]
  · rw [hlines, hbreak]
    rfl

end Kept

theorem escaped_cases (lines : Bool) (c : Char) :
    escaped lines c = [c] ∧ c ≠ '\\' ∧ Kept lines c ∨
    (∃ e, escaped lines c = ['\\', e] ∧ shortEscape? e = some c) ∨
    escaped lines c =
        ['\\', 'u', '0', '0', upperDigit (c.toNat / 16), upperDigit (c.toNat % 16)] ∧
      c.toNat < 128 := by
  rw [escaped]
  split
  · next h => exact .inr (.inl ⟨'b', rfl, h ▸ rfl⟩)
  · split
    · next h => exact .inr (.inl ⟨'t', rfl, h ▸ rfl⟩)
    · split
      · next h =>
        subst h
        cases lines with
        | false => exact .inr (.inl ⟨'n', rfl, rfl⟩)
        | true => exact .inl ⟨rfl, by decide, .inr ⟨rfl, rfl⟩⟩
      · split
        · next h => exact .inr (.inl ⟨'f', rfl, h ▸ rfl⟩)
        · split
          · next h => exact .inr (.inl ⟨'r', rfl, h ▸ rfl⟩)
          · split
            · next h => subst h; exact .inr (.inl ⟨'\\', rfl, rfl⟩)
            · next hslash =>
              split
              · next hcontrol =>
                refine .inr (.inr ⟨rfl, ?_⟩)
                simp only [isControl, Bool.or_eq_true, Bool.and_eq_true, decide_eq_true_eq,
                  beq_iff_eq] at hcontrol
                omega
              · next hplain => exact .inl ⟨rfl, hslash, .inl (Bool.not_eq_true _ ▸ hplain)⟩

theorem escaped_head (lines : Bool) (hc : c ≠ '"') :
    ∃ first more, escaped lines c = first :: more ∧ first ≠ '"' ∧ first ≠ '\r' ∧
      (first = '\n' → c = '\n') := by
  rcases escaped_cases lines c with ⟨hplain, -, hkept⟩ | ⟨e, hshort, -⟩ | ⟨hdigits, -⟩
  · exact ⟨c, [], hplain, hc, hkept.ne_return, id⟩
  · exact ⟨'\\', _, hshort, by decide, by decide, nofun⟩
  · exact ⟨'\\', _, hdigits, by decide, by decide, nofun⟩

theorem basicBody_escaped (lines : Bool) (hc : c ≠ '"') (rest : Chars) :
    basicBody lines (.text false) (escaped lines c ++ rest) =
      prepend c (basicBody lines (.text false) rest) := by
  rcases escaped_cases lines c with ⟨hplain, hslash, hkept⟩ | ⟨e, hshort, he⟩ | ⟨hdigits, hlow⟩
  · rw [hplain, List.singleton_append, basicBody, if_neg (by simp),
      if_neg (by simp [hkept.ne_return]), if_neg hc, if_neg hslash, hkept.not_refused,
      if_neg Bool.false_ne_true]
  · rw [hshort]
    simp [basicBody, he]
  · have hhigh := hexValue?_upperDigit (c.toNat / 16) (by omega)
    have hrest := hexValue?_upperDigit (c.toNat % 16) (by omega)
    have hvalue : c.toNat / 16 * 16 + c.toNat % 16 = c.toNat := Nat.div_add_mod' _ _
    have hzero : hexValue? '0' = some 0 := by decide
    have hu : shortEscape? 'u' = none := by decide
    rw [hdigits]
    simp [basicBody, hu, hzero, hhigh, hrest, hvalue, scalar?_toNat]

theorem basicBody_oneLine (s tail : Chars) :
    basicBody false (.text false) (basicText false 0 0 s ++ '"' :: tail) = some (s, tail) := by
  induction s with
  | nil => simp [basicText, basicBody]
  | cons c rest ih =>
    rw [basicText]
    split
    · next hquote =>
      subst hquote
      rw [if_pos (Nat.le_refl 0)]
      simp [basicBody, shortEscape?, ih, prepend]
    · next hquote =>
      rw [List.append_assoc, basicBody_escaped false hquote, ih]
      rfl

theorem literalBody_kept {lines : Bool} (h : Kept lines c) (hquote : c ≠ '\'') (rest : Chars) :
    literalBody lines (c :: rest) = prepend c (literalBody lines rest) := by
  rw [literalBody, if_neg (by simp [h.ne_return]), if_neg hquote, h.not_refused,
    if_neg Bool.false_ne_true]

theorem literalBody_oneLine (h : ∀ c ∈ s, Kept false c) (hquote : '\'' ∉ s) (tail : Chars) :
    literalBody false (s ++ '\'' :: tail) = some (s, tail) := by
  induction s with
  | nil => simp [literalBody]
  | cons c rest ih =>
    rw [List.mem_cons, not_or] at hquote
    rw [List.cons_append, literalBody_kept (h c List.mem_cons_self) (Ne.symm hquote.1),
      ih (fun d hd => h d (List.mem_cons_of_mem _ hd)) hquote.2]
    rfl

def threeQuotes (quote : Char) : Chars := [quote, quote, quote]

theorem closing_quotes (htail : tail.head? ≠ some quote) :
    closing quote tail = ([], tail) ∧ closing quote (quote :: tail) = ([quote], tail) ∧
      closing quote (quote :: quote :: tail) = ([quote, quote], tail) := by
  cases tail with
  | nil => simp [closing]
  | cons a rest =>
    have ha : a ≠ quote := by simpa using htail
    refine ⟨?_, by simp [closing, ha], by simp [closing]⟩
    cases rest <;> simp [closing, ha]

theorem not_closes_of_head {first : Char} (h : first ≠ quote) (rest : Chars) :
    closes quote (first :: rest) = false := by
  cases rest <;> simp [closes, h]

theorem not_closes_of_second {second : Char} (h : second ≠ quote) (rest : Chars) :
    closes quote (quote :: second :: rest) = false := by
  simp [closes, h]

theorem basicBody_quote (rest : Chars) : basicBody true (.text false) ('"' :: rest) =
    if closes '"' rest then some (closing '"' (rest.drop 2))
    else prepend '"' (basicBody true (.text false) rest) := by
  simp [basicBody]

theorem literalBody_quote (rest : Chars) : literalBody true ('\'' :: rest) =
    if closes '\'' rest then some (closing '\'' (rest.drop 2))
    else prepend '\'' (literalBody true rest) := by
  simp [literalBody]

theorem eq_of_closes_basicText (hseen : 1 ≤ seen)
    (h : closes '"' (basicText true 2 seen s ++ threeQuotes '"' ++ tail) = true) :
    s = [] ∨ s = ['"'] ∧ seen < 2 := by
  have hescaped (seen : Nat) (c : Char) (rest : Chars) (hc : c = '"' → 2 ≤ seen) :
      ∃ first more, basicText true 2 seen (c :: rest) = first :: more ∧ first ≠ '"' := by
    rw [basicText]
    split
    · next hquote =>
      rw [if_pos (hc hquote)]
      exact ⟨'\\', _, rfl, by decide⟩
    · next hquote =>
      obtain ⟨first, more, hhead, hne, -⟩ := escaped_head true hquote
      exact ⟨first, _, by rw [hhead]; rfl, hne⟩
  cases s with
  | nil => exact .inl rfl
  | cons c rest =>
    by_cases hc : c = '"' → 2 ≤ seen
    · obtain ⟨first, more, htext, hne⟩ := hescaped seen c rest hc
      rw [htext, List.append_assoc, List.cons_append, not_closes_of_head hne] at h
      cases h
    · obtain ⟨rfl, hfew⟩ := Classical.not_imp.1 hc
      cases rest with
      | nil => exact .inr ⟨rfl, Nat.lt_of_not_le hfew⟩
      | cons d rest =>
        obtain ⟨first, more, htext, hne⟩ :=
          hescaped (seen + 1) d rest fun _ => by omega
        rw [basicText, if_pos rfl, if_neg hfew, htext, List.append_assoc, List.cons_append,
          List.cons_append, not_closes_of_second hne] at h
        cases h

theorem eq_of_closes_literal (hseen : 1 ≤ seen) (hrun : hasRun '\'' 2 seen s = false)
    (h : closes '\'' (s ++ threeQuotes '\'' ++ tail) = true) : s = [] ∨ s = ['\''] := by
  cases s with
  | nil => exact .inl rfl
  | cons c rest =>
    by_cases hc : c = '\''
    · subst hc
      cases rest with
      | nil => exact .inr rfl
      | cons d rest =>
        have hd : d ≠ '\'' := by
          rintro rfl
          have hthree : 2 ≤ seen + 1 := by omega
          simp [hasRun, hthree] at hrun
        rw [List.append_assoc, List.cons_append, List.cons_append, not_closes_of_second hd] at h
        cases h
    · rw [List.append_assoc, List.cons_append, not_closes_of_head hc] at h
      cases h

theorem closing_threeQuotes (htail : tail.head? ≠ some quote) (hs : s = [] ∨ s = [quote]) :
    closing quote ((s ++ threeQuotes quote ++ tail).drop 2) = (quote :: s, tail) := by
  rcases hs with rfl | rfl
  · exact (closing_quotes htail).2.1
  · exact (closing_quotes htail).2.2

theorem basicBody_lines (htail : tail.head? ≠ some '"') (s : Chars) (seen : Nat) :
    basicBody true (.text false) (basicText true 2 seen s ++ threeQuotes '"' ++ tail) =
      some (s, tail) := by
  induction s generalizing seen with
  | nil =>
    rw [basicText, List.nil_append, threeQuotes, List.cons_append, basicBody_quote, if_pos (by rfl)]
    exact congrArg some (closing_quotes htail).1
  | cons c rest ih =>
    by_cases hquote : c = '"'
    · subst hquote
      rw [basicText, if_pos rfl]
      split
      · simp only [List.cons_append, List.append_assoc, basicBody]
        simp [shortEscape?, ← List.append_assoc, ih, prepend]
      · next hfew =>
        rw [List.cons_append, List.cons_append, basicBody_quote]
        -- two quotes behind this one are a closing pair only at the end of the text
        split
        · next hcloses =>
          rcases eq_of_closes_basicText (Nat.le_add_left 1 seen) hcloses with rfl | ⟨rfl, hone⟩
          · exact congrArg some (closing_threeQuotes htail (.inl rfl))
          · have htext : basicText true 2 (seen + 1) ['"'] = ['"'] := by
              rw [basicText, if_pos rfl, if_neg (Nat.not_le_of_lt hone), basicText]
            rw [htext]
            exact congrArg some (closing_threeQuotes htail (.inr rfl))
        · rw [ih]
          rfl
    · rw [basicText, if_neg hquote, List.append_assoc, List.append_assoc,
        basicBody_escaped true hquote, ← List.append_assoc, ih]
      rfl

theorem literalBody_lines (htail : tail.head? ≠ some '\'') (h : ∀ c ∈ s, Kept true c)
    (hrun : hasRun '\'' 2 seen s = false) :
    literalBody true (s ++ threeQuotes '\'' ++ tail) = some (s, tail) := by
  induction s generalizing seen with
  | nil =>
    rw [List.nil_append, threeQuotes, List.cons_append, literalBody_quote, if_pos (by rfl)]
    exact congrArg some (closing_quotes htail).1
  | cons c rest ih =>
    have hrest := fun d hd => h d (List.mem_cons_of_mem _ hd)
    by_cases hquote : c = '\''
    · subst hquote
      have hafter : hasRun '\'' 2 (seen + 1) rest = false := by
        rw [hasRun, if_pos rfl, Bool.or_eq_false_iff] at hrun
        exact hrun.2
      rw [List.cons_append, List.cons_append, literalBody_quote]
      split
      · next hcloses =>
        have hlast := eq_of_closes_literal (Nat.le_add_left 1 seen) hafter hcloses
        exact congrArg some (closing_threeQuotes htail hlast)
      · rw [ih hrest hafter]
        rfl
    · rw [hasRun, if_neg hquote] at hrun
      rw [List.cons_append, List.cons_append, literalBody_kept (h c List.mem_cons_self) hquote,
        ih hrest hrun]
      rfl

theorem skipFirstBreak_firstBreak {text : Chars}
    (h : '\n' ∉ s → text.head? ≠ some '\n' ∧ text.head? ≠ some '\r') :
    skipFirstBreak (firstBreak s ++ text) = text := by
  by_cases hbreak : '\n' ∈ s
  · rw [firstBreak, if_pos hbreak]
    rfl
  · rw [firstBreak, if_neg hbreak, List.nil_append]
    obtain ⟨hline, hreturn⟩ := h hbreak
    rw [skipFirstBreak.eq_def]
    split
    · simp at hline
    · simp at hreturn
    · rfl

theorem quotedString_basic (htail : tail.head? ≠ some '"') (s : Chars) :
    quotedString (Form.basic.text s ++ tail) = some (s, tail) := by
  have hopen : closes '"' (basicText false 0 0 s ++ '"' :: tail) = false := by
    cases s with
    | nil =>
      cases tail with
      | nil => rfl
      | cons a rest => exact not_closes_of_second (by simpa using htail) rest
    | cons c rest =>
      rw [basicText]
      split
      · exact not_closes_of_head (by decide) _
      · next hquote =>
        obtain ⟨first, more, hhead, hne, -⟩ := escaped_head false hquote
        rw [hhead, List.cons_append, List.cons_append]
        exact not_closes_of_head hne _
  have htext : Form.basic.text s ++ tail = '"' :: (basicText false 0 0 s ++ '"' :: tail) := by
    simp [Form.text]
  rw [htext, quotedString, hopen, if_neg Bool.false_ne_true, basicBody_oneLine]

theorem quotedString_literal (htail : tail.head? ≠ some '\'') (h : ∀ c ∈ s, Kept false c)
    (hquote : '\'' ∉ s) : quotedString (Form.literal.text s ++ tail) = some (s, tail) := by
  have hopen : closes '\'' (s ++ '\'' :: tail) = false := by
    cases s with
    | nil =>
      cases tail with
      | nil => rfl
      | cons a rest => exact not_closes_of_second (by simpa using htail) rest
    | cons c rest =>
      rw [List.mem_cons, not_or] at hquote
      exact not_closes_of_head (Ne.symm hquote.1) _
  have htext : Form.literal.text s ++ tail = '\'' :: (s ++ '\'' :: tail) := by
    simp [Form.text]
  rw [htext, quotedString, hopen, if_neg Bool.false_ne_true, literalBody_oneLine h hquote]

theorem quotedString_basicLines (htail : tail.head? ≠ some '"') (s : Chars) :
    quotedString (Form.basicLines.text s ++ tail) = some (s, tail) := by
  have htext : Form.basicLines.text s ++ tail =
      '"' :: '"' :: '"' :: (firstBreak s ++ (basicText true 2 0 s ++ threeQuotes '"' ++ tail)) := by
    simp [Form.text, threeQuotes]
  have hfirst : '\n' ∉ s →
      (basicText true 2 0 s ++ threeQuotes '"' ++ tail).head? ≠ some '\n' ∧
        (basicText true 2 0 s ++ threeQuotes '"' ++ tail).head? ≠ some '\r' := by
    intro hbreak
    cases s with
    | nil => simp [basicText, threeQuotes]
    | cons c rest =>
      rw [basicText]
      split
      · simp
      · next hquote =>
        obtain ⟨first, more, hhead, -, hreturn, hline⟩ := escaped_head true hquote
        rw [hhead]
        refine ⟨fun h => hbreak ?_, fun h => hreturn (Option.some.inj h)⟩
        rw [hline (Option.some.inj h)]
        exact List.mem_cons_self
  rw [htext, quotedString, if_pos (by rfl), List.drop_succ_cons, List.drop_succ_cons, List.drop_zero,
    skipFirstBreak_firstBreak hfirst, basicBody_lines htail]

theorem quotedString_literalLines (htail : tail.head? ≠ some '\'')
    (h : ∀ c ∈ s, Kept true c) (hrun : hasRun '\'' 2 0 s = false) :
    quotedString (Form.literalLines.text s ++ tail) = some (s, tail) := by
  have htext : Form.literalLines.text s ++ tail =
      '\'' :: '\'' :: '\'' :: (firstBreak s ++ (s ++ threeQuotes '\'' ++ tail)) := by
    simp [Form.text, threeQuotes]
  have hfirst : '\n' ∉ s → (s ++ threeQuotes '\'' ++ tail).head? ≠ some '\n' ∧
      (s ++ threeQuotes '\'' ++ tail).head? ≠ some '\r' := by
    intro hbreak
    cases s with
    | nil => simp [threeQuotes]
    | cons c rest =>
      have hreturn : c ≠ '\r' := (h c List.mem_cons_self).ne_return
      refine ⟨fun hline => hbreak ?_, fun hc => hreturn (Option.some.inj hc)⟩
      rw [Option.some.inj hline]
      exact List.mem_cons_self
  rw [htext, quotedString, if_pos (by rfl), List.drop_succ_cons, List.drop_succ_cons, List.drop_zero,
    skipFirstBreak_firstBreak hfirst, literalBody_lines htail h hrun]

/-- Whatever the form chosen, what is written is read back and the reader stops behind it. -/
theorem quotedString_written (hbasic : tail.head? ≠ some '"') (hliteral : tail.head? ≠ some '\'')
    (s : Chars) : quotedString (written s ++ tail) = some (s, tail) := by
  have hkept {lines : Bool} (hsoft : ¬(s.any isHard = true)) (hline : '\n' ∈ s → lines = true) :
      ∀ c ∈ s, Kept lines c := by
    intro c hc
    by_cases hbreak : c = '\n'
    · exact .inr ⟨hline (hbreak ▸ hc), hbreak⟩
    · have hnone : isHard c = false := by
        simpa using fun hhard => hsoft (List.any_eq_true.2 ⟨c, hc, hhard⟩)
      exact .inl (by simpa [isHard, hbreak] using hnone)
  rw [written, Form.choose]
  split
  · split
    · exact quotedString_basicLines hbasic s
    · exact quotedString_basic hbasic s
  · next hsoft =>
    split
    · exact quotedString_basic hbasic s
    · split
      · next hplain =>
        exact quotedString_literal hliteral (hkept hsoft fun hm => absurd hm hplain.2) hplain.1
      · split
        · exact quotedString_basicLines hbasic s
        · split
          · next hrun =>
            exact quotedString_literalLines hliteral (hkept hsoft fun _ => rfl) hrun
          · split
            · exact quotedString_basicLines hbasic s
            · exact quotedString_basic hbasic s

end Whiteout.Toml
