import Whiteout.FileSystem.Effects
import Whiteout.Proofs.FileSystem.Descent

/-!
# Requests at a spelled place

What making and deleting do at a place that a path spells, without links: each outcome is decided by
the entry found there, and a success changes that entry and no other.
-/

namespace Whiteout.FileSystem

def IsPut (fs after : FileSystem) (place : Location) (e : Entry) : Prop :=
  after.cwd = fs.cwd ∧ ∀ l, after.tree.get? l = if place = l then some e else fs.tree.get? l

def IsCut (fs after : FileSystem) (place : Location) : Prop :=
  after.cwd = fs.cwd ∧ ∀ l, after.tree.get? l = if place = l then none else fs.tree.get? l

section

variable {fs after : FileSystem} {place : Location} {e : Entry}

theorem IsPut.grows (h : fs.IsPut after place e) (hnew : fs.tree.get? place = none) :
    Grows fs after :=
  .of_added h.1 hnew h.2

theorem IsPut.linkFree (h : fs.IsPut after place e) (hfree : fs.tree.LinkFree)
    (he : e.isLink = false) : after.tree.LinkFree := by
  intro l target hlink
  rw [h.2] at hlink
  split at hlink
  · cases hlink
    cases he
  · exact hfree l target hlink

theorem IsCut.shrinks (h : fs.IsCut after place) : Grows after fs :=
  .of_removed h.1 fun l _ => h.2 l

theorem IsCut.linkFree (h : fs.IsCut after place) (hfree : fs.tree.LinkFree) :
    after.tree.LinkFree :=
  fun l target hlink => hfree l target (h.shrinks.2 l _ hlink)

variable {path : Bytes} (he : fs.entryAt path = .ok (place, e))
include he

theorem unlink_of_entryAt (hfile : e.isDir = false) :
    ∃ after, fs.unlink path = .ok after ∧ fs.IsCut after place := by
  have hdone : fs.unlink path = .ok (fs.erase place) := by simp [unlink, he, hfile]
  obtain ⟨place', e', he', -, hcwd, hgone⟩ := unlink_ok hdone
  cases he.symm.trans he'
  exact ⟨_, hdone, hcwd, hgone⟩

theorem unlinkDir_of_entryAt (hdir : e.isDir = true) (hempty : fs.tree.isEmptyAt place = true)
    (hplace : place ≠ []) : ∃ after, fs.unlinkDir path = .ok after ∧ fs.IsCut after place := by
  have hdone : fs.unlinkDir path = .ok (fs.erase place) := by simp [unlinkDir, he, hdir, hempty]
  obtain ⟨place', mode', he', -, hcwd, hgone⟩ := unlinkDir_ok hdone
  cases he.symm.trans he'
  refine ⟨_, hdone, hcwd, fun l => ?_⟩
  by_cases hl : l = []
  · subst hl
    rw [Tree.get?_nil, Tree.get?_nil, if_neg hplace]
  · exact hgone l hl

end

namespace Spells

variable {fs : FileSystem} {path : Bytes} {place : Location}

section Making

variable (hfree : fs.tree.LinkFree) (h : fs.Spells path place)
  (hadm : Path.isAdmissible path = true) (hdir : fs.tree.isDirAt place.dropLast = true)
  (hlen : ∀ n ∈ place, n.length ≤ Path.maxNameLength)
include hfree h hadm hdir hlen

variable [Host]

theorem makeDir_of_none (hnew : fs.tree.get? place = none) (mode : Nat) :
    ∃ made, fs.makeDir path mode = .ok made ∧ fs.IsPut made place (.dir (Host.granted mode)) := by
  have hresolve := h.resolveNew_eq.trans (h.resolve_eq hfree hadm hdir hlen .keepLink)
  have hmade : fs.makeDir path mode = .ok (fs.add place (.dir (Host.granted mode))) := by
    simp [makeDir, hresolve, addNew, hnew]
  obtain ⟨place', hresolve', -, hcwd, hget⟩ := makeDir_ok hmade
  cases hresolve.symm.trans hresolve'
  exact ⟨_, hmade, hcwd, hget⟩

theorem makeDir_of_some {e : Entry} (hget : fs.tree.get? place = some e) (mode : Nat) :
    fs.makeDir path mode = .error (.system .fileExists) := by
  simp [makeDir, h.resolveNew_eq, h.resolve_eq hfree hadm hdir hlen, addNew, hget]

theorem createFile_of_none (hnew : fs.tree.get? place = none) (mode : Nat) :
    ∃ made, fs.createFile path mode = .ok made ∧
      fs.IsPut made place (.file (Host.granted mode) []) := by
  have hresolve := h.resolve_eq hfree hadm hdir hlen .createFile
  have hopen : fs.openFile path mode =
      .ok (place, fs.add place (.file (Host.granted mode) [])) := by
    simp [openFile, hresolve, hnew]
  obtain ⟨-, ⟨⟨m, content, hget⟩, -⟩ | ⟨-, hcwd, hget⟩⟩ := openFile_ok hopen
  · rw [hnew] at hget
    cases hget
  · exact ⟨_, by rw [createFile, hopen]; rfl, hcwd, hget⟩

theorem createFile_of_some {e : Entry} (hget : fs.tree.get? place = some e) (mode : Nat) :
    fs.createFile path mode = if e.isDir then .error (.system .isDirectory) else .ok fs := by
  have hresolve := h.resolve_eq hfree hadm hdir hlen .createFile
  cases e with
  | file => simp [createFile, openFile, hresolve, hget, Entry.isDir, Except.map]
  | dir => simp [createFile, openFile, hresolve, hget, Entry.isDir, Except.map]
  | link => exact absurd hget (hfree _ _)

end Making

section Deleting

variable (hfree : fs.tree.LinkFree) (h : fs.Spells path place)
  (hadm : Path.isAdmissible path = true)
include hfree h hadm

theorem unlink_of_some {e : Entry} (hget : fs.tree.get? place = some e) (hfile : e.isDir = false) :
    ∃ after, fs.unlink path = .ok after ∧ fs.IsCut after place :=
  unlink_of_entryAt ((h.entryAt_eq_ok_iff hfree).2 ⟨hadm, rfl, hget⟩) hfile

theorem unlinkDir_of_some {e : Entry} (hget : fs.tree.get? place = some e) (hdir : e.isDir = true)
    (hempty : fs.tree.isEmptyAt place = true) :
    ∃ after, fs.unlinkDir path = .ok after ∧ fs.IsCut after place :=
  unlinkDir_of_entryAt ((h.entryAt_eq_ok_iff hfree).2 ⟨hadm, rfl, hget⟩) hdir hempty h.ne_nil

end Deleting

end Spells

end Whiteout.FileSystem
