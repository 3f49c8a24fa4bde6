import Whiteout.Error
import Whiteout.Text.Pieces
import Whiteout.Text.Utf8

/-!
# Branches

A union is a stack of branches, each a directory tree with a mode. The rank of a branch is its place
in the stack, and rank 0 has the highest priority.

A branch list is written `dir1=RW:dir2=RO:dir3`. Blank parts do not count. The mode stands after the
last `=` of a part and is read only when there is none. The first fault in writing order is the one
reported, and within a part a bad mode comes before a missing directory.
-/

namespace Whiteout

inductive Mode
  | readWrite
  | readOnly
  deriving DecidableEq, Repr

namespace Mode

def text : Mode → String
  | .readWrite => "rw"
  | .readOnly => "ro"

def ofText? (s : String) : Option Mode :=
  if s = "rw" then some .readWrite else if s = "ro" then some .readOnly else none

/-- Spelling in any letter case. No character outside ASCII has `r`, `w` or `o` as its lower case. -/
def ofAnyCase? (s : List Char) : Option Mode :=
  if s.map Char.toLower = ['r', 'w'] then some .readWrite
  else if s.map Char.toLower = ['r', 'o'] then some .readOnly
  else none

theorem ofText?_text (m : Mode) : ofText? m.text = some m := by cases m <;> rfl

theorem ofAnyCase?_text (m : Mode) : ofAnyCase? m.text.toList = some m := by cases m <;> rfl

end Mode

/-- A branch as it is configured; its path may begin with a tilde. -/
structure BranchSpec where
  path : String
  mode : Mode
  deriving DecidableEq, Repr

structure Branch where
  rank : Nat
  root : Bytes
  mode : Mode
  deriving DecidableEq, Repr

namespace Branch

def pathLength (b : Branch) : Nat := b.root.length

def isWritable (b : Branch) : Bool := b.mode == .readWrite

end Branch

end Whiteout

namespace Whiteout.BranchSpec

open Text (pieces cutLast? trim allBlank)

def ofPart (part : List Char) : Except ConfigFault BranchSpec :=
  match cutLast? '=' part with
  | none => withPath part .readOnly
  | some (path, mode) =>
    match Mode.ofAnyCase? mode with
    | none => .error (.badMode (String.ofList mode))
    | some mode => withPath path mode
where
  withPath (path : List Char) (mode : Mode) : Except ConfigFault BranchSpec :=
    if allBlank path then .error (.missingDirectory (String.ofList part))
    else .ok ⟨String.ofList (trim path), mode⟩

def ofParts : List (List Char) → Except ConfigFault (List BranchSpec)
  | [] => .ok []
  | part :: others =>
    match ofPart part with
    | .error e => .error e
    | .ok branch => (ofParts others).map (branch :: ·)

def listed (spec : String) : Except ConfigFault (List BranchSpec) :=
  match ofParts ((pieces ':' spec.toList).filter fun part => !allBlank part) with
  | .ok [] => .error (.emptyBranchList spec)
  | outcome => outcome

end Whiteout.BranchSpec
