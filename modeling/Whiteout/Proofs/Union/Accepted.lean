import Whiteout.Session
import Whiteout.UnionView
import Whiteout.Proofs.Path.Joining
import Whiteout.Proofs.Text.RoundTrip

/-!
# What an accepted configuration promises

A view that comes out of the checks has branches, numbered by their place, whose roots are not
empty, and its metadata name and hide tag are texts that are one path component each. `Sample` is
such a view, of two branches: the upper one is empty and the lower one, which is read-only, holds
one file.
-/

namespace Whiteout

open Text (utf8)
open Whiteout.Path (IsComponent)

namespace UnionView

structure Accepted (view : UnionView) : Prop where
  branched : view.branches ≠ []
  ranked : ∀ i (b : Branch), view.branches[i]? = some b → b.rank = i
  rooted : ∀ b ∈ view.branches, b.root ≠ []
  rootFits : ∀ b ∈ view.branches, b.root.length + 1 ≤ view.maxPathLen
  metaDir : IsComponent view.metaDir
  hideTag : IsComponent view.hideTag
  tagText : ∃ tag, view.hideTag = utf8 tag

theorem isComponent_of_fieldFault? {field value : String} (h : fieldFault? field value = none) :
    IsComponent (utf8 value) := by
  rw [fieldFault?] at h
  split at h
  · cases h
  · next hne =>
    split at h
    · cases h
    · next hslash =>
      have hnil : utf8 value ≠ [] := fun he => hne ((Text.utf8_eq_nil_iff _).1 he)
      exact ⟨hnil, fun hm => hslash (Text.separator_mem_utf8.1 hm)⟩

theorem rootFault?_eq_none_iff {limit rank : Nat} {root : Bytes} :
    rootFault? limit rank root = none ↔ root ≠ [] ∧ root.length + 1 ≤ limit := by
  rw [rootFault?]
  split
  · next hnil => simp [hnil]
  · next hne =>
    split
    · next hlong => simp [Nat.not_le_of_lt hlong]
    · next hfit => simp [hne, Nat.le_of_not_lt hfit]

theorem rankedFrom_ok {home : Option String} {limit : Nat} {specs : List BranchSpec} {rank : Nat}
    {branches : List Branch} (h : rankedFrom home limit rank specs = .ok branches) :
    branches.length = specs.length ∧ (∀ b ∈ branches, b.root ≠ []) ∧
      (∀ b ∈ branches, b.root.length + 1 ≤ limit) ∧
      ∀ i b, branches[i]? = some b → b.rank = rank + i := by
  induction specs generalizing rank branches with
  | nil => cases h; simp
  | cons spec others ih =>
    rw [rankedFrom] at h
    split at h
    · cases h
    · next hroot =>
      cases hothers : rankedFrom home limit (rank + 1) others with
      | error e => rw [hothers] at h; cases h
      | ok rest =>
        rw [hothers] at h
        cases h
        obtain ⟨hlen, hroots, hfits, hranks⟩ := ih hothers
        obtain ⟨hne, hfit⟩ := rootFault?_eq_none_iff.1 hroot
        refine ⟨by simp [hlen], by simpa using ⟨hne, hroots⟩, by simpa using ⟨hfit, hfits⟩,
          fun i b hb => ?_⟩
        cases i with
        | zero => cases hb; rfl
        | succ i =>
          have hrank := hranks i b hb
          omega

theorem accepted_of_ofConfig {home : Option String} {config : Config} {view : UnionView}
    (h : ofConfig home config = .ok view) : view.Accepted := by
  rw [ofConfig] at h
  split at h
  · cases h
  · split at h
    · cases h
    · next hmeta =>
      split at h
      · cases h
      · next htag =>
        split at h
        · cases h
        · next hspecs =>
          cases hbranches : rankedFrom home config.effectiveMaxPathLen 0 config.branches with
          | error e => rw [hbranches] at h; cases h
          | ok branches =>
            rw [hbranches] at h
            cases h
            obtain ⟨hlen, hroots, hfits, hranks⟩ := rankedFrom_ok hbranches
            exact {
              branched := by
                intro he
                have hnil : branches = [] := he
                rw [hnil, List.length_nil] at hlen
                exact hspecs (List.eq_nil_of_length_eq_zero hlen.symm)
              ranked := by simpa using hranks
              rooted := hroots
              rootFits := hfits
              metaDir := isComponent_of_fieldFault? hmeta
              hideTag := isComponent_of_fieldFault? htag
              tagText := ⟨_, rfl⟩ }

namespace Accepted

variable {view : UnionView}

theorem rank_of_mem (h : view.Accepted) {b : Branch} (hb : b ∈ view.branches) :
    view.branches[b.rank]? = some b := by
  obtain ⟨i, hi⟩ := List.mem_iff_getElem?.1 hb
  rw [h.ranked i b hi, hi]

end Accepted

end UnionView

instance decidableEqOutcome {ε α : Type} [DecidableEq ε] [DecidableEq α] : DecidableEq (Except ε α)
  | .ok a, .ok b => decidable_of_iff (a = b) (by simp)
  | .error e, .error f => decidable_of_iff (e = f) (by simp)
  | .ok _, .error _ => isFalse nofun
  | .error _, .ok _ => isFalse nofun

namespace Sample

def config : Config := { Config.unset with branches := [⟨"up", .readWrite⟩, ⟨"low", .readOnly⟩] }

def view : UnionView :=
  { branches := [⟨0, utf8 "up", .readWrite⟩, ⟨1, utf8 "low", .readOnly⟩]
    cowEnabled := true
    maxPathLen := 4096
    metaDir := utf8 ".unionfs"
    hideTag := utf8 "_HIDDEN~" }

theorem ofConfig_config : UnionView.ofConfig none config = .ok view := by decide +kernel

def tree : Tree :=
  ((Tree.empty.put [utf8 "up"] (.dir 0o755)).put [utf8 "low"] (.dir 0o755)).put
    [utf8 "low", utf8 "a"] (.file 0o644 [])

/-- Like a Linux host, run as the superuser, who may give any entry to anyone. -/
@[reducible] def host : Host :=
  { Host.plain with
    umask := 0o022
    inherits := 0o2000
    refusal? := fun _ _ => none
    takenByGiving := fun mode => if mode &&& 0o010 = 0 then 0o4000 else 0o6000
    takenByWriting := fun _ => 0o6000 }

def session : Session := .start { tree, cwd := [] } ⟨0, 0⟩

end Sample

end Whiteout
