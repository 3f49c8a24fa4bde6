import Whiteout.Config.Basic
import Whiteout.Config.Store
import Whiteout.Text.Utf8

/-!
# The view of a union

A marker's name is the hidden name followed by the hide tag. The first occurrence of the tag decides:
it must end the name and must not be all of it.

A `UnionView` is a configuration that has been checked: every operation reads it and none changes
it. The first violated condition is reported, the settings before the branches and the branches in
rank order.
-/

namespace Whiteout.Tag

def firstOffset? (tag : Bytes) : Bytes → Option Nat
  | [] => if tag.isEmpty then some 0 else none
  | b :: rest => if tag.isPrefixOf (b :: rest) then some 0 else (firstOffset? tag rest).map (· + 1)

def offset? (name tag : Bytes) : Option Nat :=
  if tag.isEmpty then none
  else (firstOffset? tag name).filter fun n => 0 < n && n + tag.length == name.length

def strip? (name tag : Bytes) : Option Bytes := (offset? name tag).map name.take

end Whiteout.Tag

namespace Whiteout

structure UnionView where
  branches : List Branch
  cowEnabled : Bool
  maxPathLen : Nat
  metaDir : Bytes
  hideTag : Bytes
  deriving DecidableEq, Repr

namespace UnionView

open Text (utf8)

def fieldFault? (field value : String) : Option ConfigFault :=
  if value.toList = [] then some (.emptyField field)
  else if '/' ∈ value.toList then some (.separatorInField field value)
  else none

def rootFault? (limit rank : Nat) (root : Bytes) : Option ConfigFault :=
  if root = [] then some (.emptyRoot rank)
  else if limit < root.length + 1 then some (.rootTooLong rank root limit)
  else none

def rankedFrom (home : Option String) (limit rank : Nat) : List BranchSpec → Except ConfigFault (List Branch)
  | [] => .ok []
  | spec :: others =>
    let root := Environment.expandTilde home spec.path
    match rootFault? limit rank root with
    | some fault => .error fault
    | none => (rankedFrom home limit (rank + 1) others).map (⟨rank, root, spec.mode⟩ :: ·)

def ofConfig (home : Option String) (config : Config) : Except ConfigFault UnionView :=
  if config.effectiveMaxPathLen = 0 then .error .noPathLimit
  else match fieldFault? "meta_dir" config.effectiveMetaDir with
    | some fault => .error fault
    | none =>
      match fieldFault? "hide_tag" config.effectiveHideTag with
      | some fault => .error fault
      | none =>
        if config.branches = [] then .error .noBranches
        else (rankedFrom home config.effectiveMaxPathLen 0 config.branches).map fun branches =>
          { branches
            cowEnabled := config.cowEnabled
            maxPathLen := config.effectiveMaxPathLen
            metaDir := utf8 config.effectiveMetaDir
            hideTag := utf8 config.effectiveHideTag }

def branch (view : UnionView) (rank : Nat) : Except Error Branch :=
  match view.branches[rank]? with
  | some branch => .ok branch
  | none => .error (.argument (.noBranch rank view.branches.length))

def tagOffset? (view : UnionView) (name : Bytes) : Option Nat := Tag.offset? name view.hideTag

theorem branch_ok_iff (view : UnionView) (rank : Nat) (b : Branch) :
    view.branch rank = .ok b ↔ view.branches[rank]? = some b := by
  unfold branch
  split <;> simp_all

end UnionView

end Whiteout
