import Whiteout.Proofs.FileSystem.Growth

/-!
# Special bits

No request looks at special bits, so on file systems that differ in nothing else it answers the same
and leaves the same tree. As a file system grows, a new directory has the bits handed down by the
one it is in, and an entry that was there has those it had or, once given away, those it keeps. So
the bits are determined by what is there in the end and by what was given away.
-/

namespace Whiteout.FileSystem

open Whiteout.Path (components)

inductive SameOutcome {ε α β : Type} (R : α → β → Prop) : Except ε α → Except ε β → Prop
  | ok {a : α} {b : β} (h : R a b) : SameOutcome R (.ok a) (.ok b)
  | error {e : ε} : SameOutcome R (.error e) (.error e)

namespace SameTree

variable {fs middle other : FileSystem}

theorem refl (fs : FileSystem) : SameTree fs fs := ⟨rfl, rfl⟩

theorem symm (h : SameTree fs other) : SameTree other fs := ⟨h.1.symm, h.2.symm⟩

theorem trans (h : SameTree fs middle) (h' : SameTree middle other) : SameTree fs other :=
  ⟨h'.1.trans h.1, h'.2.trans h.2⟩

theorem resolveHops (h : SameTree fs other) (path : Bytes) (names : List Name) (purpose : Purpose) :
    other.resolveHops path names purpose = fs.resolveHops path names purpose := by
  rw [FileSystem.resolveHops, FileSystem.resolveHops, h.1, h.2]

theorem entryAt (h : SameTree fs other) (path : Bytes) : other.entryAt path = fs.entryAt path := by
  unfold FileSystem.entryAt resolve existing
  rw [h.resolveHops, h.1]

theorem probe (h : SameTree fs other) (path : Bytes) : other.probe path = fs.probe path := by
  rw [FileSystem.probe, FileSystem.probe, h.entryAt]

theorem put (h : SameTree fs other) (place : Location) (e : Entry) :
    SameTree (fs.put place e) (other.put place e) := by
  refine ⟨?_, h.2⟩
  rw [FileSystem.put, FileSystem.put, h.1]

theorem setSpecial (h : SameTree fs other) (place : Location) (bits bits' : Nat) :
    SameTree (fs.setSpecial place bits) (other.setSpecial place bits') := h

variable [Host]

theorem makeDir (h : SameTree fs other) (path : Bytes) (mode : Nat) :
    SameOutcome SameTree (fs.makeDir path mode) (other.makeDir path mode) := by
  unfold FileSystem.makeDir resolveNew
  rw [h.resolveHops]
  cases fs.resolveHops path (components path) .keepLink with
  | error e => exact .error
  | ok spot =>
    cases spot with
    | self => exact .error
    | named place =>
      simp only [addNew, h.1]
      split
      · exact .error
      · exact .ok ((h.put _ _).setSpecial _ _ _)

theorem createFile (h : SameTree fs other) (path : Bytes) (mode : Nat) :
    SameOutcome SameTree (fs.createFile path mode) (other.createFile path mode) := by
  unfold FileSystem.createFile openFile resolve
  rw [h.resolveHops]
  split
  · exact .error
  · exact .error
  · rw [h.1]
    split
    · exact .error
    · exact .ok h
    · exact .ok ((h.put _ _).setSpecial _ _ _)

end SameTree

variable [Host] {fs before middle after other : FileSystem} {given given' : Location → Prop}

structure PassesOn (given : Location → Prop) (before after : FileSystem) : Prop where
  kept : ∀ l e, before.tree.get? l = some e → ¬given l → after.special l = before.special l
  taken : ∀ l e, before.tree.get? l = some e → given l →
    after.special l = keptBits e (before.special l)
  absent : ∀ l, after.tree.get? l = none → after.special l = before.special l
  born : ∀ l e, before.tree.get? l = none → after.tree.get? l = some e →
    after.special l = after.inherited l e

theorem keptBits_dir (mode bits : Nat) : keptBits (.dir mode) bits = bits := rfl

theorem keptBits_inherited (fs : FileSystem) (l : Location) (e : Entry) :
    keptBits e (fs.inherited l e) = fs.inherited l e := by
  cases e with
  | dir => rfl
  | file => exact Host.zero_without _
  | link => exact Host.zero_without _

/-- The host keeps nothing back from the modes that markers and their directories are asked for with,
and no entry has special bits that it hands down or takes away. -/
structure AsAsked (fs : FileSystem) : Prop where
  umask : 0o755 &&& Host.umask = 0
  inherits : ∀ l, fs.special l &&& Host.inherits = 0
  giving : ∀ l mode, fs.special l &&& Host.takenByGiving mode = 0

namespace AsAsked

theorem granted_eq (h : fs.AsAsked) {mode : Nat} (hmode : mode &&& 0o755 = mode) :
    Host.granted mode = mode := by
  refine Host.without_of_disjoint ?_
  rw [← hmode, Nat.and_assoc, h.umask, Nat.and_zero]

theorem keptBits_eq (h : fs.AsAsked) (e : Entry) (l : Location) :
    keptBits e (fs.special l) = fs.special l := by
  rw [keptBits, Host.without_of_disjoint (h.giving l _), ite_self]

end AsAsked

namespace PassesOn

theorem refl (fs : FileSystem) : PassesOn (fun _ => False) fs fs where
  kept _ _ _ _ := rfl
  taken _ _ _ h := h.elim
  absent _ _ := rfl
  born l e hnone hsome := by cases hnone.symm.trans hsome

theorem of_giveAway {place : Location} {e : Entry} (h : fs.tree.get? place = some e) :
    PassesOn (· = place) fs (fs.giveAway place e) where
  kept l _ _ hne := if_neg hne
  taken l f hget hl := by
    subst hl
    cases h.symm.trans hget
    exact if_pos rfl
  absent l hnone := by
    refine if_neg ?_
    rintro rfl
    cases h.symm.trans hnone
  born l f hnone hsome := by cases hnone.symm.trans hsome

theorem of_add {place : Location} {e : Entry} (hne : place ≠ []) (hnew : fs.tree.get? place = none)
    (hget : ∀ l, (fs.add place e).tree.get? l = if place = l then some e else fs.tree.get? l) :
    PassesOn (fun _ => False) fs (fs.add place e) where
  kept l f hsome _ := by
    refine if_neg ?_
    rintro rfl
    cases hnew.symm.trans hsome
  taken _ _ _ h := h.elim
  absent l hnone := by
    refine if_neg ?_
    rintro rfl
    rw [hget, if_pos rfl] at hnone
    cases hnone
  born l f hnone hsome := by
    rw [hget] at hsome
    split at hsome
    · next hl =>
      cases hsome
      subst hl
      have hparent : (fs.add place e).special place.dropLast = fs.special place.dropLast :=
        if_neg fun h => by
          have := congrArg List.length h
          have := List.length_pos_iff.2 hne
          rw [List.length_dropLast] at *
          omega
      refine (if_pos rfl).trans ?_
      cases e with
      | dir => rw [inherited, inherited, hparent]
      | file => rfl
      | link => rfl
    · cases hnone.symm.trans hsome

theorem special_of_dir (h : PassesOn given before after) {l : Location}
    (hdir : before.tree.isDirAt l = true) : after.special l = before.special l := by
  obtain ⟨mode, hget⟩ := Tree.isDirAt_iff.1 hdir
  by_cases hl : given l
  · exact (h.taken l _ hget hl).trans (keptBits_dir mode _)
  · exact h.kept l _ hget hl

theorem inherited_eq (h : PassesOn given before after) {l : Location} {e : Entry}
    (hget : before.tree.get? l = some e) : after.inherited l e = before.inherited l e := by
  cases e with
  | dir =>
    have hdir := Tree.isDirAt_dropLast hget
    rw [inherited, inherited, h.special_of_dir hdir]
  | file => rfl
  | link => rfl

theorem trans (h : PassesOn given before middle) (h' : PassesOn given' middle after)
    (hgrow : Grows before middle) (hgrow' : Grows middle after) :
    PassesOn (fun l => given l ∨ given' l) before after where
  kept l e hget hnot := by
    rw [not_or] at hnot
    exact (h'.kept l e (hgrow.2 l e hget) hnot.2).trans (h.kept l e hget hnot.1)
  taken l e hget hgiven := by
    have hmiddle := hgrow.2 l e hget
    by_cases hl : given l
    · by_cases hl' : given' l
      · rw [h'.taken l e hmiddle hl', h.taken l e hget hl, keptBits_keptBits]
      · rw [h'.kept l e hmiddle hl', h.taken l e hget hl]
    · rw [h'.taken l e hmiddle (hgiven.resolve_left hl), h.kept l e hget hl]
  absent l hnone := by
    have hmiddle : middle.tree.get? l = none := by
      cases hsome : middle.tree.get? l with
      | none => rfl
      | some e => cases hnone.symm.trans (hgrow'.2 l e hsome)
    exact (h'.absent l hnone).trans (h.absent l hmiddle)
  born l e hnone hsome := by
    cases hmiddle : middle.tree.get? l with
    | none => exact h'.born l e hmiddle hsome
    | some f =>
      cases hsome.symm.trans (hgrow'.2 l f hmiddle)
      rw [h'.inherited_eq hmiddle]
      have hborn := h.born l e hnone hmiddle
      by_cases hl : given' l
      · rw [h'.taken l e hmiddle hl, hborn, keptBits_inherited]
      · rw [h'.kept l e hmiddle hl, hborn]

theorem congr (h : PassesOn given before after) (hsame : ∀ l, given' l ↔ given l) :
    PassesOn given' before after := by
  obtain rfl : given' = given := funext fun l => propext (hsame l)
  exact h

theorem special_eq (h : PassesOn given before after) (h' : PassesOn given before other)
    (htree : other.tree = after.tree) (l : Location) : other.special l = after.special l := by
  -- a new directory has its bits from the one above it, so the induction is on the depth
  induction hn : l.length generalizing l with
  | zero =>
    obtain rfl := List.length_eq_zero_iff.1 hn
    exact (h'.special_of_dir rfl).trans (h.special_of_dir rfl).symm
  | succ n ih =>
    cases hget : before.tree.get? l with
    | some e =>
      by_cases hl : given l
      · rw [h.taken l e hget hl, h'.taken l e hget hl]
      · rw [h.kept l e hget hl, h'.kept l e hget hl]
    | none =>
      cases hafter : after.tree.get? l with
      | none => rw [h.absent l hafter, h'.absent l (htree ▸ hafter)]
      | some e =>
        rw [h.born l e hget hafter, h'.born l e hget (htree ▸ hafter)]
        cases e with
        | dir => rw [inherited, inherited, ih l.dropLast (by rw [List.length_dropLast, hn]; rfl)]
        | file => rfl
        | link => rfl

theorem unique (h : PassesOn given before after) (h' : PassesOn given before other)
    (hsame : SameTree after other) : other = after := by
  have hspecial : other.special = after.special := funext fun l => h.special_eq h' hsame.1 l
  obtain ⟨htree, hcwd⟩ := hsame
  cases after
  cases other
  cases htree
  cases hcwd
  cases hspecial
  rfl

theorem of_nothing_taken (h : PassesOn given before after)
    (hnone : ∀ mode, Host.takenByGiving mode = 0) :
    PassesOn (fun _ => False) before after where
  kept l e hget _ := by
    by_cases hl : given l
    · rw [h.taken l e hget hl, keptBits, hnone, Host.without_zero, ite_self]
    · exact h.kept l e hget hl
  taken _ _ _ hl := hl.elim
  absent := h.absent
  born := h.born

theorem special_of_asAsked (h : PassesOn given before after) (hasked : before.AsAsked)
    {l : Location} {e : Entry}
    (hget : after.tree.get? l = some e) :
    after.special l = if (before.tree.get? l).isSome then before.special l else 0 := by
  have hold (l : Location) (f : Entry) (hsome : before.tree.get? l = some f) :
      after.special l = before.special l := by
    by_cases hl : given l
    · rw [h.taken l f hsome hl, hasked.keptBits_eq]
    · exact h.kept l f hsome hl
  induction hn : l.length generalizing l e with
  | zero =>
    obtain rfl := List.length_eq_zero_iff.1 hn
    exact h.special_of_dir rfl
  | succ n ih =>
    cases hsome : before.tree.get? l with
    | some f => exact hold l f hsome
    | none =>
      rw [h.born l e hsome hget]
      cases e with
      | dir =>
        obtain ⟨mode, hparent⟩ := Tree.isDirAt_iff.1 (Tree.isDirAt_dropLast hget)
        rw [inherited, ih hparent (by rw [List.length_dropLast, hn]; rfl)]
        split
        · exact hasked.inherits _
        · exact Nat.zero_and _
      | file => rfl
      | link => rfl

end PassesOn

theorem makeDir_passesOn {made : FileSystem} {path : Bytes} {mode : Nat}
    (h : fs.makeDir path mode = .ok made) : PassesOn (fun _ => False) fs made := by
  obtain ⟨place, hresolve, hnew, rfl⟩ := makeDir_eq_add h
  have hreached := resolveNew_reached hresolve
  exact .of_add (Location.ne_nil_of_isNamed hreached.1) hnew (Tree.get?_put (hreached.accepts rfl hnew))

theorem createFile_passesOn {made : FileSystem} {path : Bytes} {mode : Nat}
    (h : fs.createFile path mode = .ok made) : PassesOn (fun _ => False) fs made := by
  obtain ⟨place, hopen⟩ := createFile_ok h
  obtain ⟨hresolve, ⟨-, rfl⟩ | ⟨hnew, rfl⟩⟩ := openFile_cases hopen
  · exact .refl _
  · have hreached := resolve_reached hresolve
    exact .of_add (Location.ne_nil_of_isNamed hreached.1) hnew (Tree.get?_put (hreached.accepts rfl hnew))

end Whiteout.FileSystem
