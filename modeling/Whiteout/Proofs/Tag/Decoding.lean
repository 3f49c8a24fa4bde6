import Whiteout.Proofs.Tag.Occurrence
import Whiteout.Proofs.Text.RoundTrip

/-!
# What stands before a tag

For a name and a tag that are texts, offsets count bytes, and a tag can only stand where a character
of the name begins. So what a tag is taken off is a text again. It comes back when the tag is put
behind it, exactly if the tag is not found before that place, be it inside the text or across its
end; a text that shares no character with the tag cannot have it there.
-/

namespace Whiteout.Tag

open Text (utf8)

variable {name tag x : String} {n : Nat}

theorem utf8_ne_nil_iff : utf8 name ≠ [] ↔ name ≠ "" := by
  rw [ne_eq, Text.utf8_eq_nil_iff, String.toList_eq_nil_iff]

theorem occursAt_utf8_iff (htag : tag ≠ "") : OccursAt (utf8 tag) (utf8 name) n ↔
    ∃ front back : String, (utf8 front).length = n ∧ name = front ++ tag ++ back := by
  constructor
  · rintro ⟨rest, hrest⟩
    obtain ⟨lead, more, hlead, hfirst⟩ :=
      Text.exists_first_byte (fun h => htag (String.toList_eq_nil_iff.1 h))
    have hcut : (utf8 name).take n ++ lead :: (more ++ rest) = utf8 name := by
      rw [← List.cons_append, ← hlead, hrest, List.take_append_drop]
    have hlt : n < (utf8 name).length := by
      apply Nat.lt_of_not_le
      intro hle
      simp [List.drop_eq_nil_of_le hle, hlead] at hrest
    obtain ⟨front, later, hfront, hlater, hname⟩ := Text.exists_utf8_of_first_byte hcut hfirst
    have hlater' : utf8 tag ++ rest = utf8 later := by rw [hlead, List.cons_append, hlater]
    obtain ⟨back, rfl⟩ := Text.exists_of_utf8_append hlater'
    refine ⟨front, back, ?_, by rw [hname, String.append_assoc]⟩
    rw [← hfront, List.length_take_of_le (Nat.le_of_lt hlt)]
  · rintro ⟨front, back, rfl, rfl⟩
    rw [Text.utf8_append, Text.utf8_append]
    exact occursAt_append (utf8 front) (utf8 back)

theorem not_occursAt_of_disjoint (htag : tag ≠ "") (h : ∀ c ∈ x.toList, c ∉ tag.toList)
    (hn : n < (utf8 x).length) : ¬OccursAt (utf8 tag) (utf8 (x ++ tag)) n := by
  rw [occursAt_utf8_iff htag]
  rintro ⟨front, back, rfl, hname⟩
  have hlists : x.toList ++ tag.toList = front.toList ++ (tag.toList ++ back.toList) := by
    simpa using congrArg String.toList hname
  rcases List.append_eq_append_iff.1 hlists with ⟨more, hfront, -⟩ | ⟨inner, hx, htail⟩
  · have hlonger : utf8 front = utf8 x ++ more.flatMap String.utf8EncodeChar := by
      rw [utf8, hfront, List.flatMap_append, utf8]
    rw [hlonger, List.length_append] at hn
    omega
  · -- the tag begins inside the text, so the text has its first character
    obtain ⟨c, cs, hc⟩ := List.exists_cons_of_ne_nil (fun h => htag (String.toList_eq_nil_iff.1 h))
    cases inner with
    | nil =>
      rw [List.append_nil] at hx
      rw [String.toList_inj.1 hx] at hn
      exact Nat.lt_irrefl _ hn
    | cons d inner =>
      rw [hc, List.cons_append, List.cons_append] at htail
      have hd : c = d := (List.cons_eq_cons.1 htail).1
      exact h d (by simp [hx]) (by simp [hc, hd])

theorem untagged_iff : Untagged (utf8 tag) (utf8 x) ↔ x ≠ "" ∧ tag ≠ "" ∧
    ∀ m < (utf8 x).length, ¬OccursAt (utf8 tag) (utf8 (x ++ tag)) m := by
  rw [Untagged, offset?_eq_some_iff, utf8_ne_nil_iff, List.length_pos_iff, utf8_ne_nil_iff,
    Text.utf8_append]
  constructor
  · rintro ⟨htag, hx, -, hfirst⟩
    exact ⟨hx, htag, hfirst⟩
  · rintro ⟨hx, htag, hfirst⟩
    exact ⟨htag, hx, ⟨utf8 x, rfl, rfl⟩, hfirst⟩

theorem strip?_append_iff :
    strip? (utf8 (x ++ tag)) (utf8 tag) = some (utf8 x) ↔ Untagged (utf8 tag) (utf8 x) := by
  rw [strip?_eq_some_iff, Text.utf8_append]
  exact and_iff_right rfl

theorem exists_text_iff : (∃ front, front.length = n ∧ utf8 name = front ++ utf8 tag) ↔
    ∃ x : String, (utf8 x).length = n ∧ name = x ++ tag := by
  constructor
  · rintro ⟨front, rfl, hname⟩
    obtain ⟨x, rfl⟩ := Text.exists_utf8_of_append hname.symm
    exact ⟨x, rfl, Text.utf8_injective (by rw [hname, Text.utf8_append])⟩
  · rintro ⟨x, rfl, rfl⟩
    exact ⟨utf8 x, rfl, Text.utf8_append x tag⟩

/-- A tag is found in a name where its first occurrence ends the name, behind some text. What it is
taken off is this text, and so exactly the texts come back that it does not occur in or across the
end of. -/
theorem strip_exactly (name tag : String) :
    (∀ n, offset? (utf8 name) (utf8 tag) = some n ↔ tag ≠ "" ∧ 0 < n ∧
      (∃ x : String, (utf8 x).length = n ∧ name = x ++ tag) ∧
      ∀ m < n, ¬OccursAt (utf8 tag) (utf8 name) m) ∧
    (∀ hidden, strip? (utf8 name) (utf8 tag) = some hidden →
      ∃ x : String, hidden = utf8 x ∧ x ≠ "" ∧ x ++ tag = name) ∧
    ∀ x : String, (strip? (utf8 (x ++ tag)) (utf8 tag) = some (utf8 x) ↔ x ≠ "" ∧ tag ≠ "" ∧
        ∀ m < (utf8 x).length, ¬OccursAt (utf8 tag) (utf8 (x ++ tag)) m) ∧
      (x ≠ "" → tag ≠ "" → (∀ c ∈ x.toList, c ∉ tag.toList) →
        strip? (utf8 (x ++ tag)) (utf8 tag) = some (utf8 x)) := by
  refine ⟨fun n => ?_, fun hidden h => ?_, fun x => ⟨?_, fun hx htag hdisjoint => ?_⟩⟩
  · rw [offset?_eq_some_iff, utf8_ne_nil_iff, exists_text_iff]
  · obtain ⟨hname, huntagged⟩ := strip?_eq_some_iff.1 h
    obtain ⟨x, -, hx⟩ := exists_text_iff.1 ⟨hidden, rfl, hname⟩
    have hhidden : hidden = utf8 x := by
      rw [hx, Text.utf8_append] at hname
      exact (List.append_cancel_right hname).symm
    exact ⟨x, hhidden, utf8_ne_nil_iff.1 (hhidden ▸ huntagged.ne_nil), hx.symm⟩
  · rw [strip?_append_iff, untagged_iff]
  · rw [strip?_append_iff, untagged_iff]
    exact ⟨hx, htag, fun m hm => not_occursAt_of_disjoint htag hdisjoint hm⟩

/-- The letter takes two bytes. A tag that begins like the text ends is found too early. -/
theorem strip_exactly_sample :
    offset? (utf8 "ü_HIDDEN~") (utf8 "_HIDDEN~") = some 2 ∧
    strip? (utf8 ("ü" ++ "_HIDDEN~")) (utf8 "_HIDDEN~") = some (utf8 "ü") ∧
    strip? (utf8 ("xa" ++ "aa")) (utf8 "aa") ≠ some (utf8 "xa") := by
  obtain ⟨hoffset, -, hback⟩ := strip_exactly "ü_HIDDEN~" "_HIDDEN~"
  obtain ⟨-, -, htwice⟩ := strip_exactly "xaaa" "aa"
  have hcut : ∃ x : String, (utf8 x).length = 2 ∧ "ü_HIDDEN~" = x ++ "_HIDDEN~" :=
    ⟨"ü", by decide +kernel, by decide +kernel⟩
  have hdisjoint : ∀ c ∈ "ü".toList, c ∉ "_HIDDEN~".toList := by simp
  refine ⟨(hoffset 2).2 ⟨by decide, by decide, hcut, by decide +kernel⟩,
    (hback "ü").2 (by decide) (by decide) hdisjoint, fun h => ?_⟩
  obtain ⟨-, -, hfirst⟩ := (htwice "xa").1.1 h
  exact hfirst 1 (by decide +kernel) (by decide +kernel)

end Whiteout.Tag
