import Whiteout.Proofs.Config.Saved
import Whiteout.Proofs.FileSystem.MadeDirs

/-!
# Saves that fail

The file is opened last, when the text to write is there, and opening is refused before anything is
changed. So a save that fails has at most made directories above the path, and everything that was
there is left as it was, the file that was to be replaced in particular. Only a write that the host
breaks off once the file is open loses what was in it.
-/

namespace Whiteout.Config

open Text (utf8)
open Whiteout.FileSystem (AddsOnly Grows NamedDir PassesOn newDirMode newFileMode)
open Whiteout.Path (IsFront parent?)

section

variable [Host] {c : Config} {fs : FileSystem} {path : Bytes} {place : Location} {written : Bytes}
  {reason : IoError} {e : Error}

/-- The host opens the file and breaks off the write, with some of the text written. -/
def BreaksOff (c : Config) (fs : FileSystem) (path : Bytes) (place : Location) (written : Bytes)
    (reason : IoError) : Prop :=
  ∃ made opened text count, makeParent fs path = (.ok (), made) ∧ c.toToml? = some text ∧
    made.openFile path newFileMode = .ok (place, opened) ∧
      Host.breaksOff? place (utf8 text) = some (count, reason) ∧ written = (utf8 text).take count

theorem makeParent_adds :
    AddsOnly (fun l entry => ∃ parent, parent? path = some parent ∧
      NamedDir (makeParent fs path).2 parent l entry) fs (makeParent fs path).2 := by
  rw [makeParent]
  split
  · exact .refl fs
  · next parent hparent =>
    have hmade : AddsOnly (NamedDir (fs.makeDirs (parent.length + 1) parent).2 parent) fs
        (fs.makeDirs (parent.length + 1) parent).2 :=
      FileSystem.makeDirs_adds (Path.endsWithSeparator_of_parent hparent)
    split
    · next made hdirs =>
      rw [hdirs] at hmade
      exact hmade.weaken fun l entry hnamed => ⟨parent, hparent, hnamed⟩
    · next e made hdirs =>
      rw [hdirs] at hmade
      exact hmade.weaken fun l entry hnamed => ⟨parent, hparent, hnamed⟩

theorem makeParent_passesOn : PassesOn (fun _ => False) fs (makeParent fs path).2 := by
  rw [makeParent]
  split
  · exact .refl fs
  · next parent hparent =>
    obtain ⟨-, hmade⟩ := fs.makeDirs_passesOn (parent.length + 1) parent
    split
    · next made hdirs => rwa [hdirs] at hmade
    · next e made hdirs => rwa [hdirs] at hmade

theorem save_cases_of_error (h : (c.save fs path).1 = .error e) :
    (∃ place written reason, c.BreaksOff fs path place written reason) ∨
      (c.save fs path).2 = (makeParent fs path).2 := by
  rw [save] at h ⊢
  split
  · next fault made hparent => exact .inr (by rw [hparent])
  · next made hparent =>
    rw [hparent] at h ⊢
    cases htext : c.toToml? with
    | none => exact .inr rfl
    | some text =>
      dsimp only
      rw [FileSystem.writeAt]
      cases hopen : made.openFile path newFileMode with
      | error fault => exact .inr rfl
      | ok x =>
        obtain ⟨place, opened⟩ := x
        cases hwhole : Host.breaksOff? place (utf8 text) with
        | some stop =>
          obtain ⟨count, reason⟩ := stop
          exact .inl ⟨place, _, reason, made, opened, text, count, hparent, htext, hopen, hwhole, rfl⟩
        | none =>
          rw [htext] at h
          simp only [FileSystem.writeAt, hopen, hwhole] at h
          cases h

/-- A save that is broken off has made the directories and left a part of the text in the file. -/
theorem save_of_breaksOff (h : c.BreaksOff fs path place written reason) :
    (c.save fs path).1 = .error (.config (.notWritten reason)) ∧
      ∃ mode, (makeParent fs path).2.IsPut (c.save fs path).2 place (.file mode written) := by
  obtain ⟨made, opened, text, count, hparent, htext, hopen, hbreaks, rfl⟩ := h
  have hwrite : made.writeAt path (utf8 text) none =
      (.error reason, opened.fill place ((utf8 text).take count) none) := by
    rw [FileSystem.writeAt, hopen]
    simp only [hbreaks]
  rw [save, hparent]
  simp only [htext, hwrite, true_and]
  exact FileSystem.fill_isPut_of_openFile hopen none

end

def unwritableSample : Config := { quotedSample with maxPathLen := some (2 ^ 63) }

def replacedSample : FileSystem :=
  { tree := Sample.tree.put [utf8 "low", utf8 "c"] (.file 0o600 (utf8 "old")), cwd := [] }

def detourSample : Bytes := utf8 "new/../low/c"

@[reducible] def fullHost : Host :=
  { Sample.host with breaksOff? := fun _ _ => some (0, .system .noSpace) }

attribute [local instance] fullHost

-- with the disk full a configuration that has a text empties the file it was to replace
example : (quotedSample.save replacedSample detourSample).2.tree.get? [utf8 "low", utf8 "c"] =
    some (.file 0o600 []) := by
  decide +kernel

end Whiteout.Config
