import Whiteout.Path.Basic
import Whiteout.Tree.Sorted

/-!
# Directory trees

A tree maps locations to entries: files, directories and symbolic links. The top is always a
directory and is not stored. Entries are kept in ascending order and each stands under an admissible
name in a directory, so a tree is determined by what is found at each location. `put` refuses what
would break this, and `erase` takes everything below a location with it.
-/

namespace Whiteout

inductive Entry
  | file (mode : Nat) (content : Bytes)
  | dir (mode : Nat)
  | link (target : Bytes)
  deriving DecidableEq, Repr

/-- How a marker or a probed entry is classified: whatever is not a directory is a file. -/
inductive Kind
  | file
  | dir
  deriving DecidableEq, Repr

def Kind.text : Kind → String
  | .file => "file"
  | .dir => "dir"

namespace Entry

def isDir : Entry → Bool
  | .dir _ => true
  | _ => false

/-- A link's own permission bits are never looked at and always all set. -/
def permissions : Entry → Nat
  | .file mode _ => mode
  | .dir mode => mode
  | .link _ => 0o777

def isLink : Entry → Bool
  | .link _ => true
  | _ => false

def kind (e : Entry) : Kind := if e.isDir then .dir else .file

theorem isDir_iff {e : Entry} : e.isDir = true ↔ ∃ mode, e = .dir mode := by
  cases e <;> simp [isDir]

theorem kind_eq_dir_iff {e : Entry} : e.kind = .dir ↔ ∃ mode, e = .dir mode := by
  cases e <;> simp [kind, isDir]

def isSound : Entry → Bool
  | .link target => Path.isAdmissible target
  | _ => true

end Entry

open Sorted (Ascending)

def Location.isNamed (l : Location) : Bool := l.getLast?.any Path.isName

theorem Location.ne_nil_of_isNamed {l : Location} (h : l.isNamed = true) : l ≠ [] := by
  rintro rfl; cases h

theorem Location.prefix_dropLast {l m : Location} (h : l <+: m) (hne : l ≠ m) : l <+: m.dropLast := by
  have hlt : l.length < m.length := Nat.lt_of_le_of_ne h.length_le fun he => hne (h.eq_of_length he)
  exact List.prefix_of_prefix_length_le h (List.dropLast_prefix m) (by simp; omega)

/-- Every entry has a name, stands in a directory and, if it is a link, leads along a path. -/
def Rooted (entries : List (Location × Entry)) : Prop :=
  ∀ x ∈ entries, x.1.isNamed = true ∧ x.2.isSound = true ∧
    (x.1.dropLast ≠ [] → ∃ mode, (x.1.dropLast, Entry.dir mode) ∈ entries)

structure Tree where
  entries : List (Location × Entry)
  ascending : Ascending entries
  rooted : Rooted entries

namespace Tree

def empty : Tree := ⟨[], List.Pairwise.nil, nofun⟩

def get? (t : Tree) (l : Location) : Option Entry :=
  if l = [] then some (.dir 0o755) else Sorted.find? l t.entries

def isDirAt (t : Tree) (l : Location) : Bool := (t.get? l).any Entry.isDir

theorem get?_nil (t : Tree) : t.get? [] = some (.dir 0o755) := rfl

theorem isDirAt_iff {t : Tree} {l : Location} : t.isDirAt l = true ↔ ∃ mode, t.get? l = some (.dir mode) := by
  unfold isDirAt
  cases h : t.get? l with
  | none => simp
  | some e => cases e <;> simp [Entry.isDir]

theorem get?_eq_some_iff {t : Tree} {l : Location} {e : Entry} (hl : l ≠ []) :
    t.get? l = some e ↔ (l, e) ∈ t.entries := by
  rw [get?, if_neg hl, Sorted.find?_eq_some_iff t.ascending]

theorem ext_get? {s t : Tree} (h : ∀ l, s.get? l = t.get? l) : s = t := by
  have hs : ∀ x ∈ s.entries, x.1 ≠ [] := fun x hx => Location.ne_nil_of_isNamed (s.rooted x hx).1
  have ht : ∀ x ∈ t.entries, x.1 ≠ [] := fun x hx => Location.ne_nil_of_isNamed (t.rooted x hx).1
  have hroot {xs : List (Location × Entry)} (hasc : Ascending xs) (hne : ∀ x ∈ xs, x.1 ≠ []) :
      Sorted.find? [] xs = none := by
    cases hf : Sorted.find? [] xs with
    | none => rfl
    | some e => exact absurd rfl (hne _ ((Sorted.find?_eq_some_iff hasc).1 hf))
  have he : s.entries = t.entries := by
    refine Sorted.eq_of_find?_eq s.ascending t.ascending fun m => ?_
    by_cases hm : m = []
    · subst hm; rw [hroot s.ascending hs, hroot t.ascending ht]
    · have := h m; simpa [get?, hm] using this
  cases s; cases t; cases he; rfl

theorem isName_of_get? {t : Tree} {l : Location} {e : Entry} (h : t.get? l = some e) :
    ∀ name ∈ l, Path.isName name = true := by
  suffices ∀ n l e, l.length = n → t.get? l = some e → ∀ name ∈ l, Path.isName name = true from this _ l e rfl h
  intro n
  induction n with
  | zero => intro l e hn; rw [List.length_eq_zero_iff.1 hn]; simp
  | succ n ih =>
    intro l e hn h
    have hl : l ≠ [] := by rintro rfl; cases hn
    obtain ⟨hname, -, hdir⟩ := t.rooted _ ((get?_eq_some_iff hl).1 h)
    rw [← List.dropLast_concat_getLast hl]
    simp only [List.mem_append, List.mem_singleton]
    rintro name (hm | rfl)
    · have hne : l.dropLast ≠ [] := List.ne_nil_of_mem hm
      obtain ⟨mode, hp⟩ := hdir hne
      exact ih l.dropLast _ (by simp [hn]) ((get?_eq_some_iff hne).2 hp) name hm
    · simpa [Location.isNamed, List.getLast?_eq_some_getLast hl] using hname

theorem isSound_of_get? {t : Tree} {l : Location} {e : Entry} (h : t.get? l = some e) : e.isSound = true := by
  by_cases hl : l = []
  · subst hl; cases h; rfl
  · exact (t.rooted _ ((get?_eq_some_iff hl).1 h)).2.1

theorem isDirAt_dropLast {t : Tree} {l : Location} {e : Entry} (h : t.get? l = some e) :
    t.isDirAt l.dropLast = true := by
  by_cases hl : l.dropLast = []
  · rw [hl]; rfl
  · have hne : l ≠ [] := by rintro rfl; exact hl rfl
    obtain ⟨mode, hp⟩ := (t.rooted _ ((get?_eq_some_iff hne).1 h)).2.2 hl
    exact isDirAt_iff.2 ⟨mode, (get?_eq_some_iff hl).2 hp⟩

theorem isDirAt_of_above {t : Tree} {l m : Location} {e : Entry} (hm : t.get? m = some e) (h : l <+: m) (hne : l ≠ m) :
    t.isDirAt l = true := by
  suffices ∀ n m e, m.length = n → t.get? m = some e → l <+: m → l ≠ m → t.isDirAt l = true from
    this _ m e rfl hm h hne
  intro n
  induction n with
  | zero =>
    intro m e hn _ h hne
    rw [List.length_eq_zero_iff.1 hn] at h hne
    exact absurd (List.prefix_nil.1 h) hne
  | succ n ih =>
    intro m e hn hm h hne
    have hlast := Location.prefix_dropLast h hne
    by_cases he : l = m.dropLast
    · rw [he]; exact isDirAt_dropLast hm
    · obtain ⟨mode, hp⟩ := isDirAt_iff.1 (isDirAt_dropLast hm)
      exact ih _ _ (by simp [hn]) hp hlast he

/-- What `put` asks for: a name in a directory, and no directory replaced by something else. -/
def Accepts (t : Tree) (l : Location) (e : Entry) : Prop :=
  l.isNamed = true ∧ e.isSound = true ∧ t.isDirAt l.dropLast = true ∧ (t.isDirAt l = true → e.isDir = true)

instance (t : Tree) (l : Location) (e : Entry) : Decidable (t.Accepts l e) :=
  inferInstanceAs (Decidable (_ ∧ _ ∧ _ ∧ _))

theorem rooted_insert {t : Tree} {l : Location} {e : Entry} (h : t.Accepts l e) :
    Rooted (Sorted.insert l e t.entries) := by
  obtain ⟨hl, he, hp, hd⟩ := h
  have keepDir {m : Location} {mode : Nat} (hm : m ≠ []) (hmem : (m, Entry.dir mode) ∈ t.entries) :
      ∃ mode', (m, Entry.dir mode') ∈ Sorted.insert l e t.entries := by
    by_cases hml : m = l
    · subst hml
      have hdir := hd (isDirAt_iff.2 ⟨mode, (get?_eq_some_iff hm).2 hmem⟩)
      cases e with
      | dir mode' => exact ⟨mode', Sorted.mem_insert_self ..⟩
      | file _ _ => cases hdir
      | link _ => cases hdir
    · exact ⟨mode, Sorted.mem_insert_of_ne hmem hml⟩
  intro x hx
  rcases Sorted.mem_insert hx with rfl | hx
  · refine ⟨hl, he, fun hne => ?_⟩
    obtain ⟨mode, hget⟩ := isDirAt_iff.1 hp
    exact keepDir hne ((get?_eq_some_iff hne).1 hget)
  · obtain ⟨hname, hsound, hdir⟩ := t.rooted x hx
    refine ⟨hname, hsound, fun hne => ?_⟩
    obtain ⟨mode, hmem⟩ := hdir hne
    exact keepDir hne hmem

def put (t : Tree) (l : Location) (e : Entry) : Tree :=
  if h : t.Accepts l e then ⟨Sorted.insert l e t.entries, Sorted.ascending_insert t.ascending, rooted_insert h⟩
  else t

theorem get?_put {t : Tree} {l : Location} {e : Entry} (h : t.Accepts l e) (m : Location) :
    (t.put l e).get? m = if l = m then some e else t.get? m := by
  by_cases hm : m = []
  · subst hm; simp [get?, Location.ne_nil_of_isNamed h.1]
  · simp [put, h, get?, hm, Sorted.find?_insert _ _ _ t.ascending]

def under (l m : Location) : Bool := l.isPrefixOf m

theorem rooted_filter {entries : List (Location × Entry)} (h : Rooted entries) (l : Location) :
    Rooted (entries.filter fun x => !under l x.1) := by
  intro x hx
  obtain ⟨hmem, hk⟩ := List.mem_filter.1 hx
  obtain ⟨hname, hsound, hdir⟩ := h x hmem
  refine ⟨hname, hsound, fun hne => ?_⟩
  obtain ⟨mode, hp⟩ := hdir hne
  refine ⟨mode, List.mem_filter.2 ⟨hp, ?_⟩⟩
  simp only [under, Bool.not_eq_true', ← Bool.not_eq_true, List.isPrefixOf_iff_prefix] at hk ⊢
  exact fun hpre => hk (hpre.trans (List.dropLast_prefix _))

def erase (t : Tree) (l : Location) : Tree :=
  ⟨t.entries.filter fun x => !under l x.1, t.ascending.filter _, rooted_filter t.rooted l⟩

theorem get?_erase (t : Tree) (l m : Location) :
    (t.erase l).get? m = if m ≠ [] ∧ under l m = true then none else t.get? m := by
  by_cases hm : m = []
  · subst hm; simp [get?]
  · have := Sorted.find?_filter (fun x => !under l x) t.entries m
    simp only [get?, hm, erase, if_false, ne_eq, not_false_eq_true, true_and, this]
    cases under l m <;> rfl

/-- Entries strictly below a location, as their places relative to it, each directory before its content. -/
def below (t : Tree) (l : Location) : List (Location × Entry) :=
  t.entries.filterMap fun x =>
    if under l x.1 && x.1.length != l.length then some (x.1.drop l.length, x.2) else none

def isEmptyAt (t : Tree) (l : Location) : Bool := (t.below l).isEmpty

theorem mem_below_iff {t : Tree} {l place : Location} {e : Entry} :
    (place, e) ∈ t.below l ↔ place ≠ [] ∧ t.get? (l ++ place) = some e := by
  simp only [below, List.mem_filterMap, Option.ite_none_right_eq_some, Option.some.injEq, Prod.mk.injEq,
    Bool.and_eq_true, under, List.isPrefixOf_iff_prefix, bne_iff_ne, ne_eq]
  constructor
  · rintro ⟨⟨m, f⟩, hmem, ⟨⟨rest, hrest⟩, hlen⟩, hdrop, hf⟩
    subst hrest hf
    simp only [List.drop_left] at hdrop
    subst hdrop
    have hne : rest ≠ [] := by rintro rfl; simp at hlen
    exact ⟨hne, (get?_eq_some_iff (by simp [hne])).2 hmem⟩
  · rintro ⟨hne, hget⟩
    exact ⟨(l ++ place, e), (get?_eq_some_iff (by simp [hne])).1 hget, ⟨by simp, by simpa using hne⟩, by simp, rfl⟩

theorem isEmptyAt_iff {t : Tree} {l : Location} :
    t.isEmptyAt l = true ↔ ∀ place, place ≠ [] → t.get? (l ++ place) = none := by
  rw [isEmptyAt, List.isEmpty_iff, List.eq_nil_iff_forall_not_mem]
  constructor
  · intro h place hne
    cases hget : t.get? (l ++ place) with
    | none => rfl
    | some e => exact absurd (mem_below_iff.2 ⟨hne, hget⟩) (h _)
  · rintro h ⟨place, e⟩ hmem
    obtain ⟨hne, hget⟩ := mem_below_iff.1 hmem
    rw [h place hne] at hget; cases hget

theorem get?_erase_leaf {t : Tree} {l : Location} (hl : l ≠ []) (h : t.isDirAt l = false ∨ t.isEmptyAt l = true)
    (m : Location) : (t.erase l).get? m = if l = m then none else t.get? m := by
  rw [get?_erase]
  by_cases hlm : l = m
  · subst hlm; simp [hl, under]
  · rw [if_neg hlm]
    split
    · next hu =>
      obtain ⟨rest, rfl⟩ := List.isPrefixOf_iff_prefix.1 hu.2
      have hne : rest ≠ [] := by rintro rfl; simp at hlm
      rcases h with hdir | hempty
      · cases hget : t.get? (l ++ rest) with
        | none => rfl
        | some e =>
          rw [isDirAt_of_above hget (List.prefix_append ..) hlm] at hdir; cases hdir
      · rw [isEmptyAt_iff.1 hempty rest hne]
    · rfl

end Tree

end Whiteout
