import Mathlib
import Whiteout.Branch.Listed
import Whiteout.Proofs.Text.Parts

/-!
# Branch lists written and read

A part of a branch list that is not blank denotes at most one branch, and a list is read exactly if
there is such a part and each of them denotes a branch. A list of branches may be rendered in many
ways: with the modes in any letter case, white space around the paths and blank parts in between.
All of them are read as the branches rendered, as long as the paths are of the kind that reading
gives.
-/

namespace Whiteout

open Text (pieces rejoin trim allBlank cutLast?)

namespace Mode

def Spells (m : Mode) (s : List Char) : Prop :=
  List.Forall₂ (fun c letter => c = letter ∨ c = letter.toUpper) s m.text.toList

theorem toLower_eq_iff {c letter : Char} (h : letter.isLower = true) :
    c.toLower = letter ↔ c = letter ∨ c = letter.toUpper := by
  have hkept : letter.toLower = letter :=
    Char.toLower_eq_of_not_isUpper (Char.not_isUpper_of_isLower h)
  constructor
  · rintro rfl
    by_cases hupper : c.isUpper = true
    · have hsame : c.toUpper = c :=
        Char.toUpper_eq_of_not_isLower (Char.not_isLower_of_isUpper hupper)
      exact .inr (by rw [Char.toUpper_toLower_eq_toUpper, hsame])
    · exact .inl (Char.toLower_eq_of_not_isUpper hupper).symm
  · rintro (rfl | rfl)
    · exact hkept
    · rw [Char.toLower_toUpper_eq_toLower, hkept]

theorem map_toLower_eq_iff {s letters : List Char} (h : ∀ c ∈ letters, c.isLower = true) :
    s.map Char.toLower = letters ↔
      List.Forall₂ (fun c letter => c = letter ∨ c = letter.toUpper) s letters := by
  induction letters generalizing s with
  | nil => simp
  | cons letter rest ih =>
    cases s with
    | nil => simp
    | cons c s =>
      have hrest : ∀ c ∈ rest, c.isLower = true := fun c hc => h c (List.mem_cons_of_mem _ hc)
      rw [List.map_cons, List.cons_eq_cons, toLower_eq_iff (h letter List.mem_cons_self), ih hrest,
        List.forall₂_cons]

theorem ofAnyCase?_eq_some_iff {m : Mode} {s : List Char} : ofAnyCase? s = some m ↔ m.Spells s := by
  have hlower : ∀ c ∈ m.text.toList, c.isLower = true :=
    List.all_eq_true.1 (by cases m <;> decide)
  have hspells : m.Spells s ↔ s.map Char.toLower = m.text.toList :=
    (map_toLower_eq_iff hlower).symm
  have hwrite : Mode.readWrite.text.toList = ['r', 'w'] := rfl
  have honly : Mode.readOnly.text.toList = ['r', 'o'] := rfl
  rw [hspells, ofAnyCase?]
  split
  · next hs => cases m <;> simp [hs, hwrite, honly]
  · next hs =>
    split
    · next hs' => cases m <;> simp [hs', hwrite, honly]
    · next hs' => cases m <;> simp [hs, hs', hwrite, honly]

theorem spells_text (m : Mode) : m.Spells m.text.toList :=
  ofAnyCase?_eq_some_iff.1 (ofAnyCase?_text m)

theorem isAlpha_of_spells {m : Mode} {s : List Char} (h : m.Spells s) :
    ∀ c ∈ s, c.isAlpha = true := by
  have hletters : ∀ letter ∈ m.text.toList, (letter.isAlpha && letter.toUpper.isAlpha) = true :=
    List.all_eq_true.1 (by cases m <;> decide)
  rw [Spells] at h
  generalize m.text.toList = letters at h hletters
  induction h with
  | nil => simp
  | cons hc _ ih =>
    rw [List.forall_mem_cons, Bool.and_eq_true] at hletters
    rw [List.forall_mem_cons]
    refine ⟨?_, ih hletters.2⟩
    rcases hc with rfl | rfl
    · exact hletters.1.1
    · exact hletters.1.2

end Mode

namespace BranchSpec

/-- The branch that a part stands for, read-only if it has no mode of its own. -/
inductive Denotes : List Char → BranchSpec → Prop
  | bare {path : List Char} (hfree : '=' ∉ path) (hpath : allBlank path = false) :
      Denotes path ⟨String.ofList (trim path), .readOnly⟩
  | moded {path mode : List Char} {m : Mode} (hfree : '=' ∉ mode) (hpath : allBlank path = false)
      (hmode : m.Spells mode) : Denotes (path ++ '=' :: mode) ⟨String.ofList (trim path), m⟩

/-- Parts that render a list of branches in order, with blank parts anywhere. -/
inductive Renders : List BranchSpec → List (List Char) → Prop
  | nil : Renders [] []
  | blank {branches : List BranchSpec} {part : List Char} {parts : List (List Char)}
      (hpart : allBlank part = true) (hrest : Renders branches parts) :
      Renders branches (part :: parts)
  | branch {b : BranchSpec} {branches : List BranchSpec} {left right mode : List Char}
      {parts : List (List Char)} (hleft : allBlank left = true) (hright : allBlank right = true)
      (hmode : b.mode.Spells mode) (hrest : Renders branches parts) :
      Renders (b :: branches) ((left ++ (b.path.toList ++ right) ++ '=' :: mode) :: parts)

/-- The path has no blank ends, is not blank and has no `:`, so that a list can hold it. -/
structure Listable (b : BranchSpec) : Prop where
  notBlank : allBlank b.path.toList = false
  trimmed : trim b.path.toList = b.path.toList
  uncut : ':' ∉ b.path.toList

def rendered (b : BranchSpec) : List Char := b.path.toList ++ '=' :: b.mode.text.toList

variable {part : List Char} {parts : List (List Char)} {b : BranchSpec}
  {branches : List BranchSpec} {spec : String}

theorem withPath_eq_ok_iff {path : List Char} {m : Mode} : ofPart.withPath part path m = .ok b ↔
    allBlank path = false ∧ b = ⟨String.ofList (trim path), m⟩ := by
  rw [ofPart.withPath]
  cases allBlank path with
  | true => simp
  | false => simp [eq_comm]

theorem ofPart_eq_ok_iff : ofPart part = .ok b ↔ Denotes part b := by
  constructor
  · intro h
    rw [ofPart] at h
    split at h
    · next hcut =>
      obtain ⟨hpath, rfl⟩ := withPath_eq_ok_iff.1 h
      exact .bare ((Text.cutLast?_eq_none_iff _ _).1 hcut) hpath
    · next path mode hcut =>
      obtain ⟨rfl, hfree⟩ := Text.cutLast?_eq_some_iff.1 hcut
      split at h
      · cases h
      · next m hmode =>
        obtain ⟨hpath, rfl⟩ := withPath_eq_ok_iff.1 h
        exact .moded hfree hpath (Mode.ofAnyCase?_eq_some_iff.1 hmode)
  · intro h
    cases h with
    | bare hfree hpath =>
      rw [ofPart, (Text.cutLast?_eq_none_iff _ _).2 hfree]
      exact withPath_eq_ok_iff.2 ⟨hpath, rfl⟩
    | moded hfree hpath hmode =>
      rw [ofPart, Text.cutLast?_append hfree]
      dsimp only
      rw [Mode.ofAnyCase?_eq_some_iff.2 hmode]
      exact withPath_eq_ok_iff.2 ⟨hpath, rfl⟩

theorem ofParts_eq_ok_iff : ofParts parts = .ok branches ↔ List.Forall₂ Denotes parts branches := by
  induction parts generalizing branches with
  | nil => simp [ofParts, eq_comm]
  | cons part others ih =>
    rw [ofParts, List.forall₂_cons_left_iff]
    cases hpart : ofPart part with
    | error e =>
      refine ⟨nofun, ?_⟩
      rintro ⟨b, -, hb, -, -⟩
      cases hpart.symm.trans (ofPart_eq_ok_iff.2 hb)
    | ok b =>
      constructor
      · intro h
        cases hothers : ofParts others with
        | error e => rw [hothers] at h; cases h
        | ok rest =>
          rw [hothers] at h
          cases h
          exact ⟨b, rest, ofPart_eq_ok_iff.1 hpart, ih.1 hothers, rfl⟩
      · rintro ⟨b', rest, hb, hrest, rfl⟩
        cases hpart.symm.trans (ofPart_eq_ok_iff.2 hb)
        rw [ih.2 hrest]
        rfl

theorem listed_eq_ok_iff : listed spec = .ok branches ↔ branches ≠ [] ∧
    List.Forall₂ Denotes ((pieces ':' spec.toList).filter fun part => !allBlank part) branches := by
  rw [← ofParts_eq_ok_iff, listed]
  split
  · next hnone => simp [hnone]
  · next outcome hsome =>
    refine ⟨fun h => ⟨?_, h⟩, fun h => h.2⟩
    rintro rfl
    exact hsome h

theorem exists_denotes_iff (hpart : allBlank part = false) : (∃ b, Denotes part b) ↔
    '=' ∉ part ∨ ∃ path mode, ∃ m : Mode, part = path ++ '=' :: mode ∧ '=' ∉ mode ∧
      allBlank path = false ∧ m.Spells mode := by
  constructor
  · rintro ⟨b, hb⟩
    cases hb with
    | bare hfree _ => exact .inl hfree
    | moded hfree hpath hmode => exact .inr ⟨_, _, _, rfl, hfree, hpath, hmode⟩
  · rintro (hfree | ⟨path, mode, m, rfl, hfree, hpath, hmode⟩)
    · exact ⟨_, .bare hfree hpart⟩
    · exact ⟨_, .moded hfree hpath hmode⟩

theorem exists_forall₂_denotes_iff :
    (∃ branches, List.Forall₂ Denotes parts branches) ↔ ∀ part ∈ parts, ∃ b, Denotes part b := by
  induction parts with
  | nil => simp
  | cons part others ih =>
    simp only [List.forall_mem_cons, ← ih, List.forall₂_cons_left_iff]
    constructor
    · rintro ⟨-, b, rest, hb, hrest, -⟩
      exact ⟨⟨b, hb⟩, rest, hrest⟩
    · rintro ⟨⟨b, hb⟩, rest, hrest⟩
      exact ⟨_, b, rest, hb, hrest, rfl⟩

theorem exists_listed_iff : (∃ branches, listed spec = .ok branches) ↔
    (∃ part ∈ pieces ':' spec.toList, allBlank part = false) ∧
      ∀ part ∈ pieces ':' spec.toList, allBlank part = false → ∃ b, Denotes part b := by
  have hfull (part : List Char) : part ∈ (pieces ':' spec.toList).filter (fun p => !allBlank p) ↔
      part ∈ pieces ':' spec.toList ∧ allBlank part = false := by
    simp
  simp only [listed_eq_ok_iff]
  constructor
  · rintro ⟨branches, hne, h⟩
    have hall := exists_forall₂_denotes_iff.1 ⟨branches, h⟩
    have hparts : (pieces ':' spec.toList).filter (fun p => !allBlank p) ≠ [] := by
      intro hnil
      rw [hnil, List.forall₂_nil_left_iff] at h
      exact hne h
    obtain ⟨part, hpart⟩ := List.exists_mem_of_ne_nil _ hparts
    exact ⟨⟨part, (hfull part).1 hpart⟩, fun p hp hblank => hall p ((hfull p).2 ⟨hp, hblank⟩)⟩
  · rintro ⟨⟨part, hpart⟩, hall⟩
    obtain ⟨branches, h⟩ := exists_forall₂_denotes_iff.2 fun p hp =>
      hall p ((hfull p).1 hp).1 ((hfull p).1 hp).2
    refine ⟨branches, ?_, h⟩
    rintro rfl
    have hmem := (hfull part).2 hpart
    rw [List.forall₂_nil_right_iff.1 h] at hmem
    cases hmem

theorem denotes_rendered {left right mode : List Char} (hb : b.Listable)
    (hleft : allBlank left = true) (hright : allBlank right = true) (hmode : b.mode.Spells mode) :
    Denotes (left ++ (b.path.toList ++ right) ++ '=' :: mode) b := by
  have hfree : '=' ∉ mode := fun hmem => absurd (Mode.isAlpha_of_spells hmode _ hmem) (by decide)
  have hpath : allBlank (left ++ (b.path.toList ++ right)) = false := by
    rw [Text.allBlank_append, Text.allBlank_append, hb.notBlank, Bool.false_and, Bool.and_false]
  have hdenotes := Denotes.moded hfree hpath hmode
  rw [Text.trim_padded _ hleft hright, hb.trimmed, String.ofList_toList] at hdenotes
  exact hdenotes

theorem Listable.of_denotes (h : Denotes part b) (huncut : ':' ∉ part) : b.Listable := by
  have listable {path : List Char} {m : Mode} (hpath : allBlank path = false)
      (huncut : ':' ∉ path) : Listable ⟨String.ofList (trim path), m⟩ := by
    constructor
    · rwa [String.toList_ofList, Text.allBlank_trim]
    · rw [String.toList_ofList, Text.trim_trim]
    · rw [String.toList_ofList]
      exact fun hmem => huncut (Text.mem_of_mem_trim hmem)
  cases h with
  | bare _ hpath => exact listable hpath huncut
  | moded _ hpath _ => exact listable hpath fun hmem => huncut (List.mem_append_left _ hmem)

theorem listable_of_forall₂ (h : List.Forall₂ Denotes parts branches)
    (huncut : ∀ part ∈ parts, ':' ∉ part) : ∀ b ∈ branches, b.Listable := by
  induction h with
  | nil => simp
  | cons hb _ ih =>
    rw [List.forall_mem_cons] at huncut ⊢
    exact ⟨.of_denotes hb huncut.1, ih huncut.2⟩

namespace Renders

theorem ne_nil (h : Renders branches parts) (hne : branches ≠ []) : parts ≠ [] := by
  cases h with
  | nil => exact absurd rfl hne
  | blank => exact List.cons_ne_nil _ _
  | branch => exact List.cons_ne_nil _ _

theorem uncut (h : Renders branches parts) (hlistable : ∀ b ∈ branches, b.Listable) :
    ∀ part ∈ parts, ':' ∉ part := by
  have unblank {s : List Char} (hs : allBlank s = true) : ':' ∉ s :=
    Text.not_mem_of_allBlank hs (by decide)
  induction h with
  | nil => simp
  | blank hpart _ ih => exact List.forall_mem_cons.2 ⟨unblank hpart, ih hlistable⟩
  | branch hleft hright hmode _ ih =>
    rw [List.forall_mem_cons] at hlistable ⊢
    have hletters : ':' ∉ _ := fun hmem => absurd (Mode.isAlpha_of_spells hmode _ hmem) (by decide)
    refine ⟨?_, ih hlistable.2⟩
    simp [unblank hleft, unblank hright, hlistable.1.uncut, hletters]

theorem denotes (h : Renders branches parts) (hlistable : ∀ b ∈ branches, b.Listable) :
    List.Forall₂ Denotes (parts.filter fun part => !allBlank part) branches := by
  induction h with
  | nil => exact .nil
  | blank hpart _ ih =>
    rw [List.filter_cons_of_neg (by simp [hpart])]
    exact ih hlistable
  | branch hleft hright hmode _ ih =>
    rw [List.forall_mem_cons] at hlistable
    have hequals (mode : List Char) : allBlank ('=' :: mode) = false := rfl
    rw [List.filter_cons_of_pos (by rw [Text.allBlank_append, hequals, Bool.and_false]; rfl)]
    exact .cons (denotes_rendered hlistable.1 hleft hright hmode) (ih hlistable.2)

end Renders

theorem renders_rendered (branches : List BranchSpec) :
    Renders branches (branches.map rendered) := by
  induction branches with
  | nil => exact .nil
  | cons b others ih =>
    have hpart : rendered b = [] ++ (b.path.toList ++ []) ++ '=' :: b.mode.text.toList := by
      simp [rendered]
    rw [List.map_cons, hpart]
    exact .branch rfl rfl b.mode.spells_text ih

theorem listed_of_renders (hne : branches ≠ []) (hlistable : ∀ b ∈ branches, b.Listable)
    (h : Renders branches parts) : listed (String.ofList (rejoin ':' parts)) = .ok branches := by
  rw [listed_eq_ok_iff, String.toList_ofList, Text.pieces_rejoin (h.ne_nil hne) (h.uncut hlistable)]
  exact ⟨hne, h.denotes hlistable⟩

theorem listable_of_listed (h : listed spec = .ok branches) : ∀ b ∈ branches, b.Listable := by
  refine listable_of_forall₂ (listed_eq_ok_iff.1 h).2 fun part hpart => ?_
  exact Text.not_mem_piece (List.mem_filter.1 hpart).1

/-- Exactly the lists with branches and without a part that denotes none are read, part by part, and
however what was read is rendered, it is read again. -/
theorem listed_exactly :
    (∀ spec, (∃ branches, listed spec = .ok branches) ↔
      (∃ part ∈ pieces ':' spec.toList, allBlank part = false) ∧
        ∀ part ∈ pieces ':' spec.toList, allBlank part = false → '=' ∉ part ∨
          ∃ path mode, ∃ m : Mode, part = path ++ '=' :: mode ∧ '=' ∉ mode ∧
            allBlank path = false ∧ m.Spells mode) ∧
      (∀ spec branches, listed spec = .ok branches →
        List.Forall₂ Denotes ((pieces ':' spec.toList).filter fun part => !allBlank part)
          branches) ∧
      (∀ branches parts, branches ≠ [] → (∀ b ∈ branches, b.Listable) → Renders branches parts →
        listed (String.ofList (rejoin ':' parts)) = .ok branches) ∧
      (∀ spec branches parts, listed spec = .ok branches → Renders branches parts →
        listed (String.ofList (rejoin ':' parts)) = .ok branches) ∧
      ∀ branches, Renders branches (branches.map rendered) := by
  refine ⟨fun spec => ?_, fun spec branches h => (listed_eq_ok_iff.1 h).2,
    fun branches parts => listed_of_renders, fun spec branches parts h => ?_, renders_rendered⟩
  · rw [exists_listed_iff]
    refine and_congr_right fun _ => forall₂_congr fun part _ => forall_congr' fun hpart => ?_
    exact exists_denotes_iff hpart
  · exact listed_of_renders (listed_eq_ok_iff.1 h).1 (listable_of_listed h)

theorem listed_exactly_sample :
    let branches : List BranchSpec := [⟨"x=y", .readOnly⟩, ⟨"z", .readWrite⟩]
    listed "\tx=y\u3000=rO: :z=RW" = .ok branches ∧ listed "x=y=ro:z=rw" = .ok branches := by
  intro branches
  obtain ⟨-, -, hread, hagain, hrendered⟩ := listed_exactly
  have hlistable : ∀ b ∈ branches, b.Listable := by
    intro b hb
    rcases List.mem_cons.1 hb with rfl | hb
    · exact ⟨by decide, by decide, by decide⟩
    · rw [List.mem_singleton.1 hb]
      exact ⟨by decide, by decide, by decide⟩
  have hrenders : Renders branches
      ["\tx=y\u3000=rO".toList, " ".toList, "z=RW".toList] := by
    have hmixed : Mode.Spells .readOnly "rO".toList := Mode.ofAnyCase?_eq_some_iff.1 (by decide)
    have hupper : Mode.Spells .readWrite "RW".toList := Mode.ofAnyCase?_eq_some_iff.1 (by decide)
    have hnothing : allBlank [] = true := rfl
    have htab : allBlank ['\t'] = true := by decide
    have hwide : allBlank ['\u3000'] = true := by decide
    have hspace : allBlank " ".toList = true := by decide
    exact .branch htab hwide hmixed (.blank hspace (.branch hnothing hnothing hupper .nil))
  have hfirst := hread branches _ (by simp [branches]) hlistable hrenders
  exact ⟨hfirst, hagain _ branches _ hfirst (hrendered branches)⟩

end BranchSpec

end Whiteout
