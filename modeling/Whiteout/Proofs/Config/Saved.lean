import Mathlib.Algebra.Group.Nat.Defs
import Whiteout.Config.Store
import Whiteout.Proofs.Config.RoundTrip
import Whiteout.Proofs.FileSystem.Written
import Whiteout.Proofs.Union.Accepted

/-!
# Configurations loaded after they are saved

A save that succeeds has made the directories above the path and written the text of the
configuration there. Loading from the path finds that text, through links as well, and reads the
configuration that was saved. Whether there is a text at all depends on the path limit alone.
-/

namespace Whiteout.Config

open Text (utf8)
open Toml (maxInteger)

variable {c : Config} {fs made saved : FileSystem} {path : Bytes}

theorem toToml?_eq_none_iff :
    c.toToml? = none ↔ ∃ n, c.maxPathLen = some n ∧ 2 ^ 63 - 1 < n := by
  have hmax : maxInteger = 2 ^ 63 - 1 := rfl
  rw [toToml?, writable, ← hmax]
  cases c.maxPathLen with
  | none => simp
  | some n => simp

theorem eq_ok_of_fst {outcome : Except Error Unit × FileSystem} (h : outcome.1 = .ok ()) :
    outcome = (.ok (), outcome.2) :=
  Prod.ext h rfl

section

variable [Host]

theorem save_eq_ok (h : c.save fs path = (.ok (), saved)) :
    ∃ made text, makeParent fs path = (.ok (), made) ∧ c.toToml? = some text ∧
      made.writeAt path (utf8 text) none = (.ok (), saved) := by
  rw [save] at h
  split at h
  · cases h
  · next made hmade =>
    split at h
    · cases h
    · next text htext =>
      split at h
      · cases h
      · next hwrite =>
        cases h
        exact ⟨made, text, hmade, htext, hwrite⟩

theorem save_eq_limitNotWritable_iff (hmade : makeParent fs path = (.ok (), made)) :
    (c.save fs path).1 = .error (.config .limitNotWritable) ↔ c.toToml? = none := by
  rw [save, hmade]
  cases c.toToml? with
  | none => simp
  | some text =>
    dsimp only
    cases made.writeAt path (utf8 text) none with
    | mk written after => cases written <;> simp

/-- What is loaded from where a configuration was saved is that configuration, and only a path limit
beyond the integers of TOML keeps a configuration from being written. -/
theorem loadFrom_save (c : Config) (fs : FileSystem) (path : Bytes) :
    (∀ saved, c.save fs path = (.ok (), saved) → loadFrom saved path = .ok c) ∧
      ((makeParent fs path).1 = .ok () →
        ((c.save fs path).1 = .error (.config .limitNotWritable) ↔
          ∃ n, c.maxPathLen = some n ∧ 2 ^ 63 - 1 < n)) := by
  constructor
  · intro saved hsave
    obtain ⟨made, text, -, htext, hwrite⟩ := save_eq_ok hsave
    rw [loadFrom, FileSystem.textAt_of_writeAt hwrite]
    simp only [ofToml?_toToml? htext]
  · intro hparent
    exact (save_eq_limitNotWritable_iff (eq_ok_of_fst hparent)).trans toToml?_eq_none_iff

end

def quotedSample : Config :=
  { cowEnabled := false
    maxPathLen := some (2 ^ 63 - 1)
    metaDir := some "\"it's\"\n'''\r\n\\"
    hideTag := none
    branches := [⟨"\t\x00é", .readOnly⟩, ⟨"'", .readWrite⟩] }

attribute [local instance] Host.plain in
theorem loadFrom_save_sample :
    let fs := Sample.session.fs
    let path := utf8 "etc/union/config.toml"
    let tooFar := { quotedSample with maxPathLen := some (2 ^ 63) }
    loadFrom (quotedSample.save fs path).2 path = .ok quotedSample ∧
      (tooFar.save fs path).1 = .error (.config .limitNotWritable) := by
  have hok : (quotedSample.save Sample.session.fs (utf8 "etc/union/config.toml")).1 = .ok () := by
    decide +kernel
  have hparent : (makeParent Sample.session.fs (utf8 "etc/union/config.toml")).1 = .ok () := by
    decide +kernel
  have hlimit : 2 ^ 63 - 1 < 2 ^ 63 := by decide
  constructor
  · obtain ⟨hload, -⟩ :=
      loadFrom_save quotedSample Sample.session.fs (utf8 "etc/union/config.toml")
    exact hload _ (eq_ok_of_fst hok)
  · obtain ⟨-, hrefused⟩ := loadFrom_save { quotedSample with maxPathLen := some (2 ^ 63) }
      Sample.session.fs (utf8 "etc/union/config.toml")
    exact (hrefused hparent).2 ⟨2 ^ 63, rfl, hlimit⟩

end Whiteout.Config
