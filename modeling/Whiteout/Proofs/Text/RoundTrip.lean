import Whiteout.Path.Basic

/-!
# Reading back what was written

The bytes of a text spell its characters again, one after the other, so reading them gives the text.
A separator is one byte and occurs in no other character, so the components of a text are texts, and
bytes without a separator are read, well formed or not, as a text without a slash.
-/

namespace Whiteout.Text

open String (utf8EncodeChar)

theorem toNat_ofNat {n : Nat} (h : n < 256) : (UInt8.ofNat n).toNat = n := by
  rw [UInt8.toNat_ofNat']
  omega

theorem isContinuation_ofNat (n : Nat) : isContinuation (UInt8.ofNat (n % 64 + 128)) = true := by
  have hn := toNat_ofNat (n := n % 64 + 128) (by omega)
  simp only [isContinuation, Bool.and_eq_true, decide_eq_true_eq, UInt8.le_iff_toNat_le, hn,
    UInt8.reduceToNat]
  omega

theorem low6_ofNat (n : Nat) : low6 (UInt8.ofNat (n % 64 + 128)) = n % 64 := by
  rw [low6, toNat_ofNat (by omega)]
  omega

theorem ofNat_eq {c : Char} {n : Nat} (h : n = c.toNat) : Char.ofNat n = c := by
  rw [h, Char.ofNat_toNat]

theorem toNat_range (c : Char) : c.toNat < 0xD800 ∨ 0xDFFF < c.toNat ∧ c.toNat < 0x110000 := c.valid

section

variable {a b c d : UInt8} (rest : Bytes)

theorem characters_one (ha : a.toNat < 128) :
    characters (a :: rest) = some (Char.ofNat a.toNat) :: characters rest := by
  have hlow : a < 0x80 := UInt8.lt_iff_toNat_lt.2 ha
  rw [characters.eq_def]
  simp [hlow]

theorem characters_two (ha : 194 ≤ a.toNat) (ha' : a.toNat ≤ 223) (hb : isContinuation b = true) :
    characters (a :: b :: rest) = some (char2 a b) :: characters rest := by
  have hlow : ¬a < 0x80 := by rw [UInt8.lt_iff_toNat_lt]; exact Nat.not_lt.2 (by simp; omega)
  have hlead : (0xC2 ≤ a) ∧ (a ≤ 0xDF) := ⟨UInt8.le_iff_toNat_le.2 ha, UInt8.le_iff_toNat_le.2 ha'⟩
  rw [characters.eq_def]
  simp [hlow, hlead, hb]

theorem characters_three (ha : 224 ≤ a.toNat) (ha' : a.toNat ≤ 239) (hb : secondAllowed a b = true)
    (hc : isContinuation c = true) :
    characters (a :: b :: c :: rest) = some (char3 a b c) :: characters rest := by
  have hlow : ¬a < 0x80 := by rw [UInt8.lt_iff_toNat_lt]; exact Nat.not_lt.2 (by simp; omega)
  have htwo : ¬(a ≤ 0xDF) := by rw [UInt8.le_iff_toNat_le]; exact Nat.not_le.2 (by simp; omega)
  have hlead : (0xE0 ≤ a) ∧ (a ≤ 0xEF) := ⟨UInt8.le_iff_toNat_le.2 ha, UInt8.le_iff_toNat_le.2 ha'⟩
  rw [characters.eq_def]
  simp [hlow, htwo, hlead, hb, hc]

theorem characters_four (ha : 240 ≤ a.toNat) (ha' : a.toNat ≤ 244) (hb : secondAllowed a b = true)
    (hc : isContinuation c = true) (hd : isContinuation d = true) :
    characters (a :: b :: c :: d :: rest) = some (char4 a b c d) :: characters rest := by
  have hlow : ¬a < 0x80 := by rw [UInt8.lt_iff_toNat_lt]; exact Nat.not_lt.2 (by simp; omega)
  have htwo : ¬(a ≤ 0xDF) := by rw [UInt8.le_iff_toNat_le]; exact Nat.not_le.2 (by simp; omega)
  have hthree : ¬(a ≤ 0xEF) := by rw [UInt8.le_iff_toNat_le]; exact Nat.not_le.2 (by simp; omega)
  have hlead : (0xF0 ≤ a) ∧ (a ≤ 0xF4) := ⟨UInt8.le_iff_toNat_le.2 ha, UInt8.le_iff_toNat_le.2 ha'⟩
  rw [characters.eq_def]
  simp [hlow, htwo, hthree, hlead, hb, hc, hd]

end

theorem secondAllowed_iff {lead second : UInt8} : secondAllowed lead second = true ↔
    128 ≤ second.toNat ∧ second.toNat ≤ 191 ∧ (lead.toNat = 224 → 160 ≤ second.toNat) ∧
      (lead.toNat = 237 → second.toNat ≤ 159) ∧ (lead.toNat = 240 → 144 ≤ second.toNat) ∧
      (lead.toNat = 244 → second.toNat ≤ 143) := by
  simp only [secondAllowed, isContinuation, ← UInt8.toNat_inj, UInt8.reduceToNat]
  split
  · simp [UInt8.le_iff_toNat_le]; omega
  · split
    · simp [UInt8.le_iff_toNat_le]; omega
    · split
      · simp [UInt8.le_iff_toNat_le]; omega
      · split <;> simp [UInt8.le_iff_toNat_le] <;> omega

theorem characters_encode (c : Char) (rest : Bytes) :
    characters (utf8EncodeChar c ++ rest) = some c :: characters rest := by
  have hrange := toNat_range c
  have hval : c.val.toNat = c.toNat := rfl
  simp only [utf8EncodeChar, hval]
  split
  · next h1 =>
    have ha := toNat_ofNat (n := c.toNat) (by omega)
    rw [List.singleton_append, characters_one rest (by omega), ha, Char.ofNat_toNat]
  · split
    · next h1 h2 =>
      have ha := toNat_ofNat (n := c.toNat / 64 % 32 + 192) (by omega)
      simp only [List.cons_append, List.nil_append]
      rw [characters_two rest (by omega) (by omega) (isContinuation_ofNat _), char2, ha, low6_ofNat,
        ofNat_eq (c := c) (by omega)]
    · split
      · next h1 h2 h3 =>
        have ha := toNat_ofNat (n := c.toNat / 4096 % 16 + 224) (by omega)
        have hb := toNat_ofNat (n := c.toNat / 64 % 64 + 128) (by omega)
        have hsecond : secondAllowed (UInt8.ofNat (c.toNat / 4096 % 16 + 224))
            (UInt8.ofNat (c.toNat / 64 % 64 + 128)) = true := by
          rw [secondAllowed_iff, ha, hb]
          omega
        simp only [List.cons_append, List.nil_append]
        rw [characters_three rest (by omega) (by omega) hsecond (isContinuation_ofNat _), char3, ha,
          low6_ofNat, low6_ofNat, ofNat_eq (c := c) (by omega)]
      · next h1 h2 h3 =>
        have ha := toNat_ofNat (n := c.toNat / 262144 % 8 + 240) (by omega)
        have hb := toNat_ofNat (n := c.toNat / 4096 % 64 + 128) (by omega)
        have hsecond : secondAllowed (UInt8.ofNat (c.toNat / 262144 % 8 + 240))
            (UInt8.ofNat (c.toNat / 4096 % 64 + 128)) = true := by
          rw [secondAllowed_iff, ha, hb]
          omega
        simp only [List.cons_append, List.nil_append]
        rw [characters_four rest (by omega) (by omega) hsecond (isContinuation_ofNat _)
          (isContinuation_ofNat _), char4, ha, low6_ofNat, low6_ofNat, low6_ofNat,
          ofNat_eq (c := c) (by omega)]

theorem characters_utf8_append (s : String) (rest : Bytes) :
    characters (utf8 s ++ rest) = s.toList.map some ++ characters rest := by
  suffices ∀ cs : List Char, characters (cs.flatMap utf8EncodeChar ++ rest) =
    cs.map some ++ characters rest from this s.toList
  intro cs
  induction cs with
  | nil => rfl
  | cons c cs ih =>
    rw [List.flatMap_cons, List.append_assoc, characters_encode, ih, List.map_cons, List.cons_append]

theorem characters_utf8 (s : String) : characters (utf8 s) = s.toList.map some := by
  simpa [characters] using characters_utf8_append s []

theorem decode?_utf8 (s : String) : decode? (utf8 s) = some s := by
  have hread : (s.toList.map some).mapM id = some s.toList := by
    induction s.toList with
    | nil => rfl
    | cons c cs ih => simp [ih]
  rw [decode?, characters_utf8, hread]
  simp

theorem utf8_injective {s t : String} (h : utf8 s = utf8 t) : s = t := by
  have hread := decode?_utf8 s
  rw [h, decode?_utf8] at hread
  exact (Option.some.inj hread).symm

theorem exists_of_utf8_append {s t : String} {rest : Bytes} (h : utf8 s ++ rest = utf8 t) :
    ∃ r : String, t = s ++ r := by
  have hread : t.toList.map some = s.toList.map some ++ characters rest := by
    rw [← characters_utf8, ← h, characters_utf8_append]
  obtain ⟨front, back, ht, hfront, -⟩ := List.map_eq_append_iff.1 hread
  have hs : front = s.toList := (List.map_inj_right fun _ _ h => Option.some.inj h).1 hfront
  refine ⟨String.ofList back, ?_⟩
  rw [← String.toList_inj, ht, hs]
  simp

theorem utf8_eq_nil_iff (s : String) : utf8 s = [] ↔ s.toList = [] := by
  cases hs : s.toList with
  | nil => simp [utf8, hs]
  | cons c cs => simp [utf8, hs, String.utf8EncodeChar_ne_nil]

theorem separator_mem_encode {c : Char} : Path.separator ∈ utf8EncodeChar c ↔ c = '/' := by
  have hbyte {n : Nat} (h : n < 256) : Path.separator = UInt8.ofNat n ↔ n = 47 := by
    rw [← UInt8.toNat_inj, toNat_ofNat h]
    exact eq_comm
  have hslash : c = '/' ↔ c.toNat = 47 := Char.toNat_inj.symm
  have hval : c.val.toNat = c.toNat := rfl
  simp only [utf8EncodeChar, hval, hslash]
  split
  · rw [List.mem_singleton, hbyte (by omega)]
  · split
    · simp only [List.mem_cons, List.not_mem_nil, or_false]
      rw [hbyte (by omega), hbyte (by omega)]
      omega
    · split
      · simp only [List.mem_cons, List.not_mem_nil, or_false]
        rw [hbyte (by omega), hbyte (by omega), hbyte (by omega)]
        omega
      · simp only [List.mem_cons, List.not_mem_nil, or_false]
        rw [hbyte (by omega), hbyte (by omega), hbyte (by omega), hbyte (by omega)]
        omega

theorem separator_mem_utf8 {s : String} : Path.separator ∈ utf8 s ↔ '/' ∈ s.toList := by
  simp only [utf8, List.mem_flatMap, separator_mem_encode, exists_eq_right]

theorem pieces_append_of_not_mem {α : Type} [DecidableEq α] {sep : α} {front : List α}
    (h : sep ∉ front) {rest first : List α} {others : List (List α)}
    (hrest : pieces sep rest = first :: others) :
    pieces sep (front ++ rest) = (front ++ first) :: others := by
  induction front with
  | nil => simpa using hrest
  | cons a front ih =>
    have ha : a ≠ sep := fun he => h (by simp [he])
    have hfront : sep ∉ front := fun hm => h (List.mem_cons_of_mem _ hm)
    simp [pieces, ha, ih hfront]

theorem pieces_of_not_mem {α : Type} [DecidableEq α] {sep : α} {s : List α} (h : sep ∉ s) :
    pieces sep s = [s] := by
  have hpieces : pieces sep (s ++ []) = [s ++ []] := pieces_append_of_not_mem h rfl
  rwa [List.append_nil] at hpieces

theorem exists_utf8_of_mem_pieces {s : String} {piece : Bytes}
    (h : piece ∈ pieces Path.separator (utf8 s)) : ∃ t : String, piece = utf8 t := by
  suffices ∀ cs : List Char, ∀ p ∈ pieces Path.separator (cs.flatMap utf8EncodeChar),
    ∃ ds : List Char, p = ds.flatMap utf8EncodeChar by
    obtain ⟨ds, hds⟩ := this s.toList piece h
    exact ⟨String.ofList ds, by simp [utf8, hds]⟩
  intro cs
  induction cs with
  | nil =>
    intro p hp
    exact ⟨[], by simpa [pieces] using hp⟩
  | cons c cs ih =>
    intro p hp
    by_cases hc : c = '/'
    · have hslash : utf8EncodeChar c = [Path.separator] := by subst hc; rfl
      rw [List.flatMap_cons, hslash, List.singleton_append, pieces, if_pos rfl] at hp
      rcases List.mem_cons.1 hp with rfl | hp
      · exact ⟨[], rfl⟩
      · exact ih p hp
    · have hplain : Path.separator ∉ utf8EncodeChar c := fun hm => hc (separator_mem_encode.1 hm)
      obtain ⟨first, others, hrest⟩ :=
        List.exists_cons_of_ne_nil (pieces_ne_nil Path.separator (cs.flatMap utf8EncodeChar))
      rw [List.flatMap_cons, pieces_append_of_not_mem hplain hrest] at hp
      rcases List.mem_cons.1 hp with rfl | hp
      · obtain ⟨ds, hds⟩ := ih first (by rw [hrest]; simp)
        exact ⟨c :: ds, by rw [hds, List.flatMap_cons]⟩
      · exact ih p (by rw [hrest]; exact List.mem_cons_of_mem _ hp)

theorem exists_utf8_of_mem_components {s : String} {name : Bytes}
    (h : name ∈ Path.components (utf8 s)) : ∃ t : String, name = utf8 t :=
  exists_utf8_of_mem_pieces (List.mem_filter.1 h).1

theorem first_byte_of_encode {c : Char} {first : UInt8} {tail : Bytes}
    (h : utf8EncodeChar c = first :: tail) : first.IsUTF8FirstByte := by
  have hlen : 0 < (utf8EncodeChar c).length := by simp [h]
  have hget : (utf8EncodeChar c)[0] = first := by simp [h]
  rw [← hget]
  exact UInt8.isUTF8FirstByte_getElem_zero_utf8EncodeChar

theorem eq_nil_of_first_byte {c : Char} {front more : Bytes} {lead : UInt8}
    (h : utf8EncodeChar c = front ++ lead :: more) (hlead : lead.IsUTF8FirstByte) : front = [] := by
  have hlen : front.length < (utf8EncodeChar c).length := by simp [h]
  have hget : (utf8EncodeChar c)[front.length] = lead := by simp [h]
  rw [← hget, UInt8.isUTF8FirstByte_getElem_utf8EncodeChar] at hlead
  exact List.eq_nil_of_length_eq_zero hlead

theorem exists_utf8_of_first_byte {front more : Bytes} {lead : UInt8} {s : String}
    (h : front ++ lead :: more = utf8 s) (hlead : lead.IsUTF8FirstByte) :
    ∃ r t : String, front = utf8 r ∧ lead :: more = utf8 t ∧ s = r ++ t := by
  suffices ∀ cs : List Char, ∀ front, front ++ lead :: more = cs.flatMap utf8EncodeChar →
    ∃ ds es : List Char, front = ds.flatMap utf8EncodeChar ∧
      lead :: more = es.flatMap utf8EncodeChar ∧ cs = ds ++ es by
    obtain ⟨ds, es, hds, hes, hs⟩ := this s.toList front h
    refine ⟨String.ofList ds, String.ofList es, by simp [utf8, hds], by simp [utf8, hes], ?_⟩
    rw [← String.ofList_append, ← hs, String.ofList_toList]
  intro cs
  induction cs with
  | nil =>
    intro front h
    exact absurd (List.append_eq_nil_iff.1 h).2 (List.cons_ne_nil _ _)
  | cons c cs ih =>
    intro front h
    rw [List.flatMap_cons, List.append_eq_append_iff] at h
    rcases h with ⟨inner, hchar, hrest⟩ | ⟨later, rfl, hrest⟩
    · cases inner with
      | nil => exact ⟨[c], cs, by simp [hchar], hrest, rfl⟩
      | cons first inner =>
        obtain ⟨rfl, hmore⟩ := List.cons_eq_cons.1 hrest
        have hnil := eq_nil_of_first_byte hchar hlead
        refine ⟨[], c :: cs, hnil, ?_, rfl⟩
        rw [List.flatMap_cons, hchar, hnil, hmore]
        rfl
    · obtain ⟨ds, es, hds, hes, rfl⟩ := ih later hrest.symm
      exact ⟨c :: ds, es, by rw [hds, List.flatMap_cons], hes, rfl⟩

theorem exists_first_byte {s : String} (h : s.toList ≠ []) :
    ∃ lead more, utf8 s = lead :: more ∧ lead.IsUTF8FirstByte := by
  obtain ⟨c, cs, hs⟩ := List.exists_cons_of_ne_nil h
  obtain ⟨lead, tail, hlead⟩ : ∃ lead tail, utf8EncodeChar c = lead :: tail :=
    List.exists_cons_of_ne_nil String.utf8EncodeChar_ne_nil
  refine ⟨lead, tail ++ cs.flatMap utf8EncodeChar, ?_, first_byte_of_encode hlead⟩
  rw [utf8, hs, List.flatMap_cons, hlead, List.cons_append]

theorem exists_utf8_of_append {bytes : Bytes} {s t : String} (h : bytes ++ utf8 t = utf8 s) :
    ∃ r : String, bytes = utf8 r := by
  by_cases ht : t.toList = []
  · exact ⟨s, by rw [← h, (utf8_eq_nil_iff t).2 ht, List.append_nil]⟩
  · obtain ⟨lead, more, hlead, hfirst⟩ := exists_first_byte ht
    rw [hlead] at h
    obtain ⟨r, -, hr, -⟩ := exists_utf8_of_first_byte h hfirst
    exact ⟨r, hr⟩

theorem ofNat_eq_slash {n : Nat} : Char.ofNat n = '/' ↔ n = 47 := by
  constructor
  · intro h
    have hn := congrArg Char.toNat h
    by_cases hvalid : n.isValidChar
    · rwa [Char.ofNat, dif_pos hvalid] at hn
    · rw [Char.ofNat, dif_neg hvalid] at hn
      cases hn
  · intro h
    subst h
    rfl

theorem char2_ne_slash {a b : UInt8} (ha : (0xC2 ≤ a && a ≤ 0xDF) = true) : char2 a b ≠ '/' := by
  simp only [Bool.and_eq_true, decide_eq_true_eq, UInt8.le_iff_toNat_le, UInt8.reduceToNat] at ha
  rw [char2, ne_eq, ofNat_eq_slash]
  omega

theorem char3_ne_slash {a b c : UInt8} (ha : (0xE0 ≤ a && a ≤ 0xEF) = true)
    (hb : secondAllowed a b = true) : char3 a b c ≠ '/' := by
  simp only [Bool.and_eq_true, decide_eq_true_eq, UInt8.le_iff_toNat_le, UInt8.reduceToNat] at ha
  rw [secondAllowed_iff] at hb
  rw [char3, ne_eq, ofNat_eq_slash, low6]
  omega

theorem char4_ne_slash {a b c d : UInt8} (ha : (0xF0 ≤ a && a ≤ 0xF4) = true)
    (hb : secondAllowed a b = true) : char4 a b c d ≠ '/' := by
  simp only [Bool.and_eq_true, decide_eq_true_eq, UInt8.le_iff_toNat_le, UInt8.reduceToNat] at ha
  rw [secondAllowed_iff] at hb
  rw [char4, ne_eq, ofNat_eq_slash, low6]
  omega

theorem separator_mem_of_characters {bytes : Bytes} (h : some '/' ∈ characters bytes) :
    Path.separator ∈ bytes := by
  fun_induction characters bytes with
  | case1 => cases h
  | case2 a rest hlow ih =>
    rcases List.mem_cons.1 h with hslash | hrest
    · have ha : a.toNat = 47 := ofNat_eq_slash.1 (Option.some.inj hslash).symm
      have hsep : a = Path.separator := UInt8.toNat_inj.1 ha
      exact hsep ▸ List.mem_cons_self
    · exact List.mem_cons_of_mem _ (ih hrest)
  | case3 a hlow hlead b tail hb ih => simp_all [(char2_ne_slash hlead).symm]
  | case6 a hlow htwo hlead b c tail hb hc ih => simp_all [(char3_ne_slash hlead hb).symm]
  | case12 a hlow htwo hthree hlead b c d tail hb hc hd ih =>
    simp_all [(char4_ne_slash hlead hb).symm]
  | _ => simp_all

theorem toList_display (bytes : Bytes) :
    (display bytes).toList = (characters bytes).map fun c => c.getD (Char.ofNat 0xFFFD) := by
  simp [display]

theorem display_utf8 (s : String) : display (utf8 s) = s := by
  apply String.ext
  rw [toList_display, characters_utf8, List.map_map]
  exact List.map_id s.toList

theorem replacement_mem_display {bytes : Bytes} (h : decode? bytes = none) :
    Char.ofNat 0xFFFD ∈ (display bytes).toList := by
  have hnone : ∀ cs : List (Option Char), cs.mapM id = none → none ∈ cs := by
    intro cs
    induction cs with
    | nil => simp
    | cons c cs ih =>
      intro hmap
      cases c with
      | none => exact List.mem_cons_self
      | some c =>
        cases hrest : cs.mapM id with
        | none => exact List.mem_cons_of_mem _ (ih hrest)
        | some read => simp [hrest] at hmap
  rw [decode?, Option.map_eq_none_iff] at h
  rw [toList_display, List.mem_map]
  exact ⟨none, hnone _ h, rfl⟩

theorem separator_mem_of_display {bytes : Bytes} (h : '/' ∈ (display bytes).toList) :
    Path.separator ∈ bytes := by
  rw [toList_display, List.mem_map] at h
  obtain ⟨c, hc, hslash⟩ := h
  cases c with
  | none => exact absurd hslash (by decide)
  | some c => exact separator_mem_of_characters (hslash ▸ hc)

theorem characters_ne_nil {bytes : Bytes} (h : bytes ≠ []) : characters bytes ≠ [] := by
  fun_cases characters bytes with
  | case1 => exact absurd rfl h
  | _ => simp_all

end Whiteout.Text
