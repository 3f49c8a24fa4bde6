import Whiteout.Proofs.Toml.Scalar

/-!
# Documents read line by line

A document that consists of settings with bare keys and of headers for elements of arrays of tables,
each on a line of its own, is read as these lines. Settings under different keys are the entries of
their table in order, and the elements of one array of tables add up to its items.
-/

namespace Whiteout.Toml

variable {s rest text : Chars} {key : Key} {found : List Line} {v : Value} {entries : Entries}

def IsBareKey (key : Key) : Prop := key ≠ [] ∧ key.all isBare = true

instance (key : Key) : Decidable (IsBareKey key) := inferInstanceAs (Decidable (_ ∧ _))

theorem IsBareKey.isBare_of_mem (h : IsBareKey key) : ∀ c ∈ key, isBare c = true :=
  List.all_eq_true.1 h.2

theorem IsBareKey.exists_cons (h : IsBareKey key) :
    ∃ c more, key = c :: more ∧ isBare c = true := by
  obtain ⟨c, more, rfl⟩ := List.exists_cons_of_ne_nil h.1
  exact ⟨c, more, rfl, h.isBare_of_mem c List.mem_cons_self⟩

theorem ne_of_isBare {c d : Char} (hc : isBare c = true) (hd : isBare d = false) : c ≠ d := by
  rintro rfl
  rw [hd] at hc
  cases hc

theorem skipSpace_cons {c : Char} (hc : isSpace c = false) (rest : Chars) :
    skipSpace (c :: rest) = c :: rest := by
  rw [skipSpace, List.dropWhile_cons_of_neg (by simp [hc])]

theorem isSpace_of_isBare {c : Char} (hc : isBare c = true) : isSpace c = false := by
  have htab : c ≠ '\t' := ne_of_isBare hc (by decide)
  have hblank : c ≠ ' ' := ne_of_isBare hc (by decide)
  simp [isSpace, htab, hblank]

theorem simpleKey_bare (h : IsBareKey key) (hrest : ∀ c, rest.head? = some c → isBare c = false) :
    simpleKey (skipSpace (key ++ rest)) = some (key, rest) := by
  have hfront : (key ++ rest).takeWhile isBare = key ∧ (key ++ rest).dropWhile isBare = rest := by
    rw [List.takeWhile_append_of_pos h.isBare_of_mem, List.dropWhile_append_of_pos h.isBare_of_mem]
    cases rest with
    | nil => simp
    | cons c more => simp [hrest c rfl]
  obtain ⟨c, more, rfl, hc⟩ := h.exists_cons
  have hdouble : c ≠ '"' := ne_of_isBare hc (by decide)
  have hsingle : c ≠ '\'' := ne_of_isBare hc (by decide)
  rw [List.cons_append] at hfront ⊢
  rw [skipSpace_cons (isSpace_of_isBare hc), simpleKey, if_neg hdouble, if_neg hsingle, if_pos hc,
    hfront.1, hfront.2]

theorem keyPath_bare (h : IsBareKey key) (hrest : ∀ c, rest.head? = some c → isBare c = false)
    (hdot : ∀ more, skipSpace rest ≠ '.' :: more) :
    keyPath (key ++ rest) = some (([], key), skipSpace rest) := by
  have hkey : dottedKey maxDepth (key ++ rest) = some ([key], skipSpace rest) := by
    rw [maxDepth, dottedKey, simpleKey_bare h hrest]
    dsimp only
    split
    · next more heq => exact absurd heq (hdot more)
    · rfl
  rw [keyPath, hkey]
  rfl

/-- The lines that are read, whatever the fuel, if there is enough. -/
def Reads (s : Chars) (found : List Line) : Prop :=
  ∀ fuel, s.length < fuel → lines fuel s = some found

namespace Reads

theorem nil : Reads [] [] := by
  intro fuel hfuel
  obtain ⟨fuel, rfl⟩ := Nat.exists_eq_add_one_of_ne_zero (Nat.ne_of_gt hfuel)
  rfl

theorem line {c : Char} {line : Line} (hspace : isSpace c = false)
    (hcontent : lineContent (c :: s) = some (line, '\n' :: rest)) (hlen : rest.length < (c :: s).length)
    (h : Reads rest found) : Reads (c :: s) (line :: found) := by
  intro fuel hfuel
  obtain ⟨fuel, rfl⟩ := Nat.exists_eq_add_one_of_ne_zero (Nat.ne_of_gt (Nat.zero_lt_of_lt hfuel))
  rw [lines, skipSpace_cons hspace]
  dsimp only
  rw [hcontent]
  have hend : lineEnd? ('\n' :: rest) = some rest := rfl
  dsimp only
  rw [hend]
  dsimp only
  rw [h fuel (by omega)]
  rfl

theorem blank (h : Reads rest found) : Reads ('\n' :: rest) (.blank :: found) :=
  line (by decide) rfl (Nat.lt_succ_self _) h

theorem setting (hkey : IsBareKey key) (hvalue : ReadsValue text v) (h : Reads rest found) :
    Reads (key ++ ' ' :: '=' :: ' ' :: (text ++ '\n' :: rest)) (.setting ⟨[], key, v⟩ :: found) := by
  have hpair : pair (value maxDepth) (key ++ ' ' :: '=' :: ' ' :: (text ++ '\n' :: rest)) =
      some (⟨[], key, v⟩, '\n' :: rest) := by
    obtain ⟨c, more, rfl, hc⟩ := hvalue.head
    have hskip : skipSpace (' ' :: (c :: more ++ '\n' :: rest)) = c :: more ++ '\n' :: rest := by
      rw [skipSpace, List.dropWhile_cons_of_pos (by decide)]
      exact skipSpace_cons hc _
    have hequals : skipSpace (' ' :: '=' :: ' ' :: (c :: more ++ '\n' :: rest)) =
        '=' :: ' ' :: (c :: more ++ '\n' :: rest) := rfl
    rw [pair, keyPath_bare hkey (by simp; decide) (by rw [hequals]; nofun), hequals]
    change (value maxDepth (skipSpace (' ' :: (c :: more ++ '\n' :: rest)))).map _ = _
    rw [hskip, hvalue.read]
    rfl
  obtain ⟨c, more, rfl, hc⟩ := hkey.exists_cons
  rw [List.cons_append] at hpair ⊢
  refine line (isSpace_of_isBare hc) ?_ (by simp; omega) h
  have hopen : c ≠ '[' := ne_of_isBare hc (by decide)
  have hcomment : c ≠ '#' := ne_of_isBare hc (by decide)
  have hline : c ≠ '\n' := ne_of_isBare hc (by decide)
  have hreturn : c ≠ '\r' := ne_of_isBare hc (by decide)
  rw [lineContent, if_neg hopen, if_neg (by simp [hcomment, hline, hreturn]), hpair]
  rfl

theorem element (hkey : IsBareKey key) (h : Reads rest found) :
    Reads ('[' :: '[' :: (key ++ ']' :: ']' :: '\n' :: rest))
      (.header (.element [] key) :: found) := by
  refine line (by decide) ?_ (by simp; omega) h
  have hpath : keyPath (key ++ ']' :: ']' :: '\n' :: rest) =
      some (([], key), ']' :: ']' :: '\n' :: rest) :=
    keyPath_bare hkey (by simp; decide) nofun
  rw [lineContent, if_pos rfl, header, hpath]
  rfl

end Reads

def pairsOf (entries : Entries) : List Pair := entries.map fun e => ⟨[], e.1, e.2⟩

theorem find?_nil (key : Key) : find? key [] = none := rfl

theorem find?_cons (key name : Key) (v : Value) (others : Entries) :
    find? key ((name, v) :: others) = if name = key then some v else find? key others := by
  by_cases hkey : name = key <;> simp [find?, hkey]

theorem find?_append (key : Key) (entries more : Entries) :
    find? key (entries ++ more) = (find? key entries).or (find? key more) := by
  rw [find?, find?, find?, List.find?_append]
  cases entries.find? fun e => e.1 == key <;> rfl

theorem find?_eq_none (h : key ∉ entries.map Prod.fst) : find? key entries = none := by
  have hnone : entries.find? (fun e => e.1 == key) = none := by
    rw [List.find?_eq_none]
    intro e he hkey
    exact h (List.mem_map.2 ⟨e, he, by simpa using hkey⟩)
  rw [find?, hnone]
  rfl

theorem setPairs_pairsOf {more : Entries} (h : ((entries ++ more).map Prod.fst).Nodup) :
    setPairs (pairsOf more) entries = some (entries ++ more) := by
  induction more generalizing entries with
  | nil => simp [pairsOf, setPairs]
  | cons e more ih =>
    have hsplit : entries ++ e :: more = entries ++ [e] ++ more := by simp
    have hnew : e.1 ∉ entries.map Prod.fst := by
      rw [List.map_append, List.map_cons, List.nodup_append] at h
      exact fun hmem => h.2.2 _ hmem _ List.mem_cons_self rfl
    have hadd : addEntry e.1 e.2 entries = some (entries ++ [e]) := by
      rw [addEntry, find?_eq_none hnew]
      rfl
    rw [hsplit] at h ⊢
    rw [pairsOf, List.map_cons, setPairs, setDotted, hadd]
    exact ih h

def elementsOf (key : Key) (items : List Entries) : List Section :=
  items.map fun item => ⟨.element [] key, pairsOf item⟩

theorem replace_last (h : key ∉ entries.map Prod.fst) (v w : Value) :
    replace key w (entries ++ [(key, v)]) = entries ++ [(key, w)] := by
  have hkept : replace key w entries = entries := by
    refine (List.map_congr_left fun e he => if_neg fun hkey => ?_).trans (List.map_id' _)
    exact h (List.mem_map.2 ⟨e, he, hkey⟩)
  rw [replace, List.map_append, ← replace, hkept]
  simp

theorem setPairs_item {item : Entries} (h : (item.map Prod.fst).Nodup) :
    setPairs (pairsOf item) [] = some item := by
  rw [setPairs_pairsOf (by rwa [List.nil_append]), List.nil_append]

theorem addSection_element (key : Key) (pairs : List Pair) (entries : Entries) :
    addSection ⟨.element [] key, pairs⟩ entries = openElement pairs key entries := by
  simp [addSection, changeUnder]

theorem addSections_more (h : key ∉ entries.map Prod.fst) {items more : List Entries}
    (hitems : ∀ item ∈ more, (item.map Prod.fst).Nodup) :
    addSections (elementsOf key more) (entries ++ [(key, .tables items)]) =
      some (entries ++ [(key, .tables (items ++ more))]) := by
  induction more generalizing items with
  | nil => simp [elementsOf, addSections]
  | cons item more ih =>
    have hfound : find? key (entries ++ [(key, .tables items)]) = some (.tables items) := by
      rw [find?_append, find?_eq_none h]
      simp [find?]
    have hopen : openElement (pairsOf item) key (entries ++ [(key, .tables items)]) =
        some (entries ++ [(key, .tables (items ++ [item]))]) := by
      rw [openElement, hfound]
      dsimp only
      rw [setPairs_item (hitems item List.mem_cons_self), Option.map_some, replace_last h]
    rw [elementsOf, List.map_cons, addSections, addSection_element, hopen,
      Option.bind_some, ← elementsOf, ih fun other ho => hitems other (List.mem_cons_of_mem _ ho)]
    simp

theorem addSections_elementsOf (h : key ∉ entries.map Prod.fst) {items : List Entries}
    (hne : items ≠ []) (hitems : ∀ item ∈ items, (item.map Prod.fst).Nodup) :
    addSections (elementsOf key items) entries = some (entries ++ [(key, .tables items)]) := by
  obtain ⟨item, more, rfl⟩ := List.exists_cons_of_ne_nil hne
  have hopen : openElement (pairsOf item) key entries = some (entries ++ [(key, .tables [item])]) := by
    rw [openElement, find?_eq_none h]
    dsimp only
    rw [setPairs_item (hitems item List.mem_cons_self), Option.map_some]
  rw [elementsOf, List.map_cons, addSections, addSection_element, hopen,
    Option.bind_some, ← elementsOf,
    addSections_more h fun other ho => hitems other (List.mem_cons_of_mem _ ho)]
  simp

end Whiteout.Toml
