import Whiteout.FileSystem.Effects
import Whiteout.Proofs.FileSystem.Trailing

/-!
# Growing file systems

A file system grows if whatever was there is still there as it was. A path that found an entry
finds the same one after growth, through links as well. Making directories and files grows the file
system, and deleting shrinks it.
-/

namespace Whiteout.FileSystem

open Whiteout.Path (components endsWithSeparator IsProper)

/-- The two differ in special bits at most. -/
def SameTree (fs other : FileSystem) : Prop := other.tree = fs.tree ∧ other.cwd = fs.cwd

def Grows (before after : FileSystem) : Prop :=
  after.cwd = before.cwd ∧ ∀ l e, before.tree.get? l = some e → after.tree.get? l = some e

namespace Grows

variable {before middle after : FileSystem}

theorem refl (fs : FileSystem) : Grows fs fs := ⟨rfl, fun _ _ h => h⟩

theorem trans (h : Grows before middle) (h' : Grows middle after) : Grows before after :=
  ⟨h'.1.trans h.1, fun l e he => h'.2 l e (h.2 l e he)⟩

theorem of_sameTree (h : SameTree before after) : Grows before after :=
  ⟨h.2, fun l e hget => by rw [h.1, hget]⟩

theorem of_added {place : Location} {e : Entry} (hcwd : after.cwd = before.cwd)
    (hnew : before.tree.get? place = none)
    (h : ∀ l, after.tree.get? l = if place = l then some e else before.tree.get? l) :
    Grows before after := by
  refine ⟨hcwd, fun l f hf => ?_⟩
  have hne : place ≠ l := by
    intro hplace
    subst hplace
    rw [hnew] at hf
    cases hf
  rw [h, if_neg hne, hf]

theorem of_removed {place : Location} (hcwd : after.cwd = before.cwd)
    (h : ∀ l, l ≠ [] → after.tree.get? l = if place = l then none else before.tree.get? l) :
    Grows after before := by
  refine ⟨hcwd.symm, fun l f hf => ?_⟩
  by_cases hl : l = []
  · subst hl; exact hf
  · rw [h l hl] at hf
    split at hf
    · cases hf
    · exact hf

end Grows

theorem Grows.resolve {before after : FileSystem} {path : Bytes} {spot : Spot}
    (h : Grows before after) (hr : before.resolve path .keepLink = .ok spot) :
    after.resolve path .keepLink = .ok spot := by
  obtain ⟨hadm, hwalk⟩ := resolve_eq_ok_iff.1 hr
  exact resolve_eq_ok_iff.2 ⟨hadm, h.1 ▸ hwalk.grows h.2⟩

theorem Grows.entryAt {before after : FileSystem} {path : Bytes} {place : Location} {e : Entry}
    (h : Grows before after) (he : before.entryAt path = .ok (place, e)) :
    after.entryAt path = .ok (place, e) := by
  obtain ⟨spot, hr, hplace, hget⟩ := entryAt_eq_ok_iff.1 he
  exact entryAt_eq_ok_iff.2 ⟨spot, h.resolve hr, hplace, h.2 _ _ hget⟩

theorem Grows.probe {before after : FileSystem} {path : Bytes} {kind : Kind}
    (h : Grows before after) (hp : before.probe path = some kind) :
    after.probe path = some kind := by
  obtain ⟨place, e, he, hkind⟩ := probe_eq_some_iff.1 hp
  exact probe_eq_some_iff.2 ⟨place, e, h.entryAt he, hkind⟩

theorem Grows.probe_isSome {before after : FileSystem} {path : Bytes} (h : Grows before after)
    (hp : (before.probe path).isSome = true) : (after.probe path).isSome = true := by
  obtain ⟨⟨place, e⟩, he⟩ := probe_isSome_iff.1 hp
  exact probe_isSome_iff.2 ⟨(place, e), h.entryAt he⟩

variable [Host]

theorem makeDir_grows {fs made : FileSystem} {path : Bytes} {mode : Nat}
    (h : fs.makeDir path mode = .ok made) : Grows fs made := by
  obtain ⟨place, -, hnew, hcwd, hget⟩ := makeDir_ok h
  exact .of_added hcwd hnew hget

theorem probe_of_makeDir {fs made : FileSystem} {path : Bytes} {mode : Nat}
    (h : fs.makeDir path mode = .ok made) (hend : endsWithSeparator path = false) :
    (made.probe path).isSome = true := by
  obtain ⟨place, hr, hnew, hcwd, hget⟩ := makeDir_ok h
  have hr' : fs.resolve path .keepLink = .ok (.named place) := by
    rw [resolve, hops_of_not_endsWithSeparator hend]
    exact hr
  exact probe_isSome_of_resolve ((makeDir_grows h).resolve hr') (by simp [Spot.place, hget])

theorem isDir_of_makeDir {fs made : FileSystem} {path : Bytes} {mode : Nat} {place : Location}
    {e : Entry} (h : fs.makeDir path mode = .ok made)
    (hentry : made.entryAt path = .ok (place, e)) : e.isDir = true := by
  obtain ⟨new, hnew, -, -, hget⟩ := makeDir_ok h
  obtain ⟨spot, hspot, rfl, hfound⟩ := entryAt_eq_ok_iff.1 hentry
  cases hend : endsWithSeparator path with
  | false =>
    have hthere : fs.resolve path .keepLink = .ok (.named new) := by
      rw [resolve, hops_of_not_endsWithSeparator hend]
      exact hnew
    cases hspot.symm.trans ((makeDir_grows h).resolve hthere)
    rw [Spot.place, hget, if_pos rfl] at hfound
    cases hfound
    rfl
  | true =>
    have hne : components path ≠ [] := by
      intro hnil
      obtain ⟨-, hwalk⟩ := resolveHops_eq_ok_iff.1 hnew
      rw [hnil] at hwalk
      cases hwalk
    have hhops : hops path = components path ++ [[]] := by simp [hops, hend, hne]
    obtain ⟨-, hwalk⟩ := resolve_eq_ok_iff.1 hspot
    obtain ⟨-, mode', -, -, hdir⟩ := (hhops ▸ hwalk).of_trailing
    cases hdir.symm.trans hfound
    rfl

theorem createFile_ok {fs made : FileSystem} {path : Bytes} {mode : Nat}
    (h : fs.createFile path mode = .ok made) :
    ∃ place, fs.openFile path mode = .ok (place, made) := by
  rw [createFile] at h
  cases hopen : fs.openFile path mode with
  | error e => rw [hopen] at h; cases h
  | ok opened => rw [hopen] at h; cases h; exact ⟨opened.1, rfl⟩

theorem createFile_grows {fs made : FileSystem} {path : Bytes} {mode : Nat}
    (h : fs.createFile path mode = .ok made) : Grows fs made := by
  obtain ⟨place, hopen⟩ := createFile_ok h
  obtain ⟨-, ⟨-, rfl⟩ | ⟨hnew, hcwd, hget⟩⟩ := openFile_ok hopen
  · exact .refl _
  · exact .of_added hcwd hnew hget

theorem probe_of_createFile {fs made : FileSystem} {path : Bytes} {mode : Nat}
    (h : fs.createFile path mode = .ok made) : (made.probe path).isSome = true := by
  have hgrow := createFile_grows h
  obtain ⟨place, hopen⟩ := createFile_ok h
  obtain ⟨hr, hfile⟩ := openFile_ok hopen
  obtain ⟨hadm, hwalk⟩ := resolve_eq_ok_iff.1 hr
  obtain ⟨kept, hkept, hsame⟩ := hwalk.keepLink
  have hthere : (made.tree.get? place).isSome = true := by
    rcases hfile with ⟨⟨m, content, hget⟩, rfl⟩ | ⟨-, -, hget⟩
    · simp [hget]
    · simp [hget]
  have hfound : (made.tree.get? kept.place).isSome = true := by
    rcases hsame with rfl | hsome
    · exact hthere
    · obtain ⟨e, he⟩ := Option.isSome_iff_exists.1 hsome
      rw [hgrow.2 _ _ he]
      rfl
  exact probe_isSome_of_resolve (hgrow.resolve (resolve_eq_ok_iff.2 ⟨hadm, hkept⟩)) hfound

end Whiteout.FileSystem
