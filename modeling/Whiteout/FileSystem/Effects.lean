import Whiteout.FileSystem.Operations
import Whiteout.FileSystem.Reached

/-!
# What requests change

Each request that succeeds changes the tree at one place: making a directory and opening a missing
file add an entry where none was, and deleting takes one away together with nothing else.
-/

namespace Whiteout.FileSystem

theorem Reached.accepts {t : Tree} {purpose : Purpose} {place : Location} {e : Entry} (h : Reached t purpose place)
    (he : e.isSound = true) (hnew : t.get? place = none) : t.Accepts place e :=
  ⟨h.1, he, h.2.1, fun hd => by rw [Tree.isDirAt, hnew] at hd; cases hd⟩

section Making

variable [Host]

theorem makeDir_eq_add {fs made : FileSystem} {path : Bytes} {mode : Nat} (h : fs.makeDir path mode = .ok made) :
    ∃ place, fs.resolveNew path = .ok (.named place) ∧ fs.tree.get? place = none ∧
      made = fs.add place (.dir (Host.granted mode)) := by
  unfold makeDir at h
  split at h
  · cases h
  · next spot hs =>
    cases spot with
    | self => cases h
    | named place =>
      simp only [addNew] at h
      split at h
      · cases h
      · next hnew =>
        cases h
        exact ⟨place, hs, hnew, rfl⟩

theorem makeDir_ok {fs made : FileSystem} {path : Bytes} {mode : Nat} (h : fs.makeDir path mode = .ok made) :
    ∃ place, fs.resolveNew path = .ok (.named place) ∧ fs.tree.get? place = none ∧ made.cwd = fs.cwd ∧
      ∀ l, made.tree.get? l = if place = l then some (.dir (Host.granted mode)) else fs.tree.get? l := by
  obtain ⟨place, hs, hnew, rfl⟩ := makeDir_eq_add h
  exact ⟨place, hs, hnew, rfl, Tree.get?_put ((resolveNew_reached hs).accepts rfl hnew)⟩

theorem openFile_cases {fs opened : FileSystem} {path : Bytes} {mode : Nat} {place : Location}
    (h : fs.openFile path mode = .ok (place, opened)) :
    fs.resolve path .createFile = .ok (.named place) ∧
      ((∃ m content, fs.tree.get? place = some (.file m content)) ∧ opened = fs ∨
        fs.tree.get? place = none ∧ opened = fs.add place (.file (Host.granted mode) [])) := by
  unfold openFile at h
  split at h
  · cases h
  · cases h
  · next place' hs =>
    have hr := resolve_reached hs
    split at h
    · cases h
    · next e hdir hget =>
      cases h
      refine ⟨hs, .inl ⟨?_, rfl⟩⟩
      cases e with
      | file m content => exact ⟨m, content, hget⟩
      | dir m => exact (hdir m rfl).elim
      | link target => exact absurd hget (hr.2.2 (by decide) target)
    · next hnew =>
      cases h
      exact ⟨hs, .inr ⟨hnew, rfl⟩⟩

theorem openFile_ok {fs opened : FileSystem} {path : Bytes} {mode : Nat} {place : Location}
    (h : fs.openFile path mode = .ok (place, opened)) :
    fs.resolve path .createFile = .ok (.named place) ∧
      ((∃ m content, fs.tree.get? place = some (.file m content)) ∧ opened = fs ∨
        fs.tree.get? place = none ∧ opened.cwd = fs.cwd ∧
          ∀ l, opened.tree.get? l =
            if place = l then some (.file (Host.granted mode) []) else fs.tree.get? l) := by
  obtain ⟨hs, hthere | ⟨hnew, rfl⟩⟩ := openFile_cases h
  · exact ⟨hs, .inl hthere⟩
  · exact ⟨hs, .inr ⟨hnew, rfl, Tree.get?_put ((resolve_reached hs).accepts rfl hnew)⟩⟩

end Making

theorem unlink_ok {fs after : FileSystem} {path : Bytes} (h : fs.unlink path = .ok after) :
    ∃ place e, fs.entryAt path = .ok (place, e) ∧ e.isDir = false ∧ after.cwd = fs.cwd ∧
      ∀ l, after.tree.get? l = if place = l then none else fs.tree.get? l := by
  unfold unlink at h
  split at h
  · cases h
  · next place e he =>
    split at h
    · cases h
    · next hd =>
      cases h
      have hget : fs.tree.get? place = some e := entryAt_ok he
      have hne : place ≠ [] := by rintro rfl; cases hget; exact hd rfl
      have hleaf : fs.tree.isDirAt place = false := by rw [Tree.isDirAt, hget]; simpa using hd
      exact ⟨place, e, he, by simpa using hd, rfl, Tree.get?_erase_leaf hne (.inl hleaf)⟩

theorem unlinkDir_ok {fs after : FileSystem} {path : Bytes} (h : fs.unlinkDir path = .ok after) :
    ∃ place mode, fs.entryAt path = .ok (place, .dir mode) ∧ fs.tree.isEmptyAt place = true ∧ after.cwd = fs.cwd ∧
      ∀ l, l ≠ [] → after.tree.get? l = if place = l then none else fs.tree.get? l := by
  unfold unlinkDir at h
  split at h
  · cases h
  · next place e he =>
    split at h
    · cases h
    · next hd =>
      split at h
      · next hempty =>
        cases h
        cases e with
        | dir mode =>
          refine ⟨place, mode, he, hempty, rfl, fun l hl => ?_⟩
          by_cases hp : place = []
          · subst hp
            have := Tree.isEmptyAt_iff.1 hempty l hl
            simp only [List.nil_append] at this
            simp [erase, Tree.get?_erase, this]
          · exact Tree.get?_erase_leaf hp (.inr hempty) l
        | file => simp [Entry.isDir] at hd
        | link => simp [Entry.isDir] at hd
      · cases h

end Whiteout.FileSystem
