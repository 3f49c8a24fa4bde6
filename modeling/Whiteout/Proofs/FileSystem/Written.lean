import Whiteout.FileSystem.Effects
import Whiteout.Proofs.FileSystem.Spelled
import Whiteout.Proofs.Text.RoundTrip

/-!
# What is written at a path is read there

Writing changes one entry, a file where the path leads when a file is to be created. No directory
and no link comes or goes, so the path leads to the same place when it is read, through links as
well, and finds there what was written.
-/

namespace Whiteout.FileSystem

variable {fs saved : FileSystem} {path content : Bytes} {mode? : Option Nat}

theorem Walks.followLink {s t : Tree} {links : Nat} {here : Location} {names : List Name}
    {spot : Spot} (hdirs : ∀ l mode, s.get? l = some (.dir mode) → t.get? l = some (.dir mode))
    (hlinks : ∀ l target, t.get? l = some (.link target) ↔ s.get? l = some (.link target))
    (h : Walks s .createFile links here names spot) : Walks t .followLink links here names spot := by
  induction h with
  | stay => exact .stay
  | pass hdir hname _ ih => exact .pass (hdirs _ _ hdir) hname ih
  | up hdir _ ih => exact .up (hdirs _ _ hdir) ih
  | arrive hdir hname hlen hlink =>
    exact .arrive (hdirs _ _ hdir) hname hlen fun target htarget =>
      absurd (hlink target ((hlinks _ _).1 htarget)) (by decide)
  | enter hdir hname hlen hgo _ hbelow _ ih =>
    exact .enter (hdirs _ _ hdir) hname hlen hgo (by simp) (hdirs _ _ hbelow) ih
  | follow hdir hname hlen _ _ hlink _ ih =>
    exact .follow (hdirs _ _ hdir) hname hlen (by simp) (by simp) ((hlinks _ _).2 hlink) ih

variable [Host]

theorem file_of_openFile {opened : FileSystem} {place : Location} {mode : Nat}
    (h : fs.openFile path mode = .ok (place, opened)) :
    ∃ m old, opened.tree.get? place = some (.file m old) := by
  obtain ⟨-, ⟨⟨m, old, hget⟩, rfl⟩ | ⟨-, -, hget⟩⟩ := openFile_ok h
  · exact ⟨m, old, hget⟩
  · exact ⟨Host.granted mode, [], by rw [hget, if_pos rfl]⟩

theorem fill_isPut {place : Location} {m : Nat} {old : Bytes} (hnamed : place.isNamed = true)
    (hget : fs.tree.get? place = some (.file m old)) :
    fs.IsPut (fs.fill place content mode?) place (.file (mode?.getD m) content) := by
  have haccepts : fs.tree.Accepts place (.file (mode?.getD m) content) :=
    ⟨hnamed, rfl, Tree.isDirAt_dropLast hget, fun hdir => by
      rw [Tree.isDirAt, hget] at hdir
      cases hdir⟩
  rw [fill, hget]
  exact ⟨rfl, Tree.get?_put haccepts⟩

theorem fill_isPut_of_openFile {place : Location} {opened : FileSystem}
    (h : fs.openFile path newFileMode = .ok (place, opened)) (mode? : Option Nat) :
    ∃ mode, fs.IsPut (opened.fill place content mode?) place (.file mode content) := by
  obtain ⟨m, old, hfile⟩ := file_of_openFile h
  obtain ⟨hresolve, hopened⟩ := openFile_ok h
  obtain ⟨hcwd, hput⟩ : opened.IsPut (opened.fill place content mode?) place
      (.file (mode?.getD m) content) := fill_isPut (resolve_reached hresolve).1 hfile
  rcases hopened with ⟨-, rfl⟩ | ⟨-, hcwd', hget⟩
  · exact ⟨mode?.getD m, hcwd, hput⟩
  · refine ⟨mode?.getD m, hcwd.trans hcwd', fun l => ?_⟩
    rw [hput, hget]
    split
    · rfl
    · rfl

theorem writeAt_ok (h : fs.writeAt path content mode? = (.ok (), saved)) :
    ∃ place mode, fs.resolve path .createFile = .ok (.named place) ∧
      (∀ m, fs.tree.get? place ≠ some (.dir m)) ∧ fs.IsPut saved place (.file mode content) := by
  rw [writeAt] at h
  cases hopen : fs.openFile path newFileMode with
  | error e => rw [hopen] at h; cases h
  | ok x =>
    obtain ⟨place, opened⟩ := x
    simp only [hopen] at h
    cases hwhole : Host.breaksOff? place content with
    | some stop => rw [hwhole] at h; cases h
    | none =>
      rw [hwhole] at h
      cases h
      obtain ⟨mode, hput⟩ := fill_isPut_of_openFile hopen mode?
      obtain ⟨hresolve, hopened⟩ := openFile_ok hopen
      refine ⟨place, mode, hresolve, fun m hdir => ?_, hput⟩
      rcases hopened with ⟨⟨m', old, hfile⟩, -⟩ | ⟨hnew, -⟩
      · cases hfile.symm.trans hdir
      · cases hnew.symm.trans hdir

theorem contentAt_of_writeAt (h : fs.writeAt path content mode? = (.ok (), saved)) :
    saved.contentAt path = .ok content := by
  obtain ⟨place, mode, hresolve, hnodir, hcwd, hput⟩ := writeAt_ok h
  obtain ⟨-, -, hnolink⟩ := resolve_reached hresolve
  obtain ⟨hadm, hwalk⟩ := resolve_eq_ok_iff.1 hresolve
  have hdirs (l : Location) (m : Nat) (hdir : fs.tree.get? l = some (.dir m)) :
      saved.tree.get? l = some (.dir m) := by
    have hne : place ≠ l := by
      rintro rfl
      exact hnodir m hdir
    rw [hput, if_neg hne, hdir]
  -- a link at the place would have been followed, so the file replaces none
  have hlinks (l : Location) (target : Bytes) :
      saved.tree.get? l = some (.link target) ↔ fs.tree.get? l = some (.link target) := by
    rw [hput]
    split
    · next he =>
      subst he
      exact iff_of_false (by simp) (hnolink (by decide) target)
    · exact Iff.rfl
  have hresolve' : saved.resolve path .followLink = .ok (.named place) :=
    resolve_eq_ok_iff.2 ⟨hadm, hcwd ▸ hwalk.followLink hdirs hlinks⟩
  have htarget : saved.targetAt path = .ok (place, .file mode content) :=
    targetAt_eq_ok_iff.2 ⟨_, hresolve', rfl, by rw [hput, if_pos rfl]⟩
  rw [contentAt, htarget]

theorem textAt_of_writeAt {text : String}
    (h : fs.writeAt path (Text.utf8 text) mode? = (.ok (), saved)) : saved.textAt path = .ok text := by
  rw [textAt, contentAt_of_writeAt h]
  simp only [Text.decode?_utf8]

end Whiteout.FileSystem
