import Whiteout.FileSystem.Operations
import Whiteout.Path.Buffer
import Whiteout.UnionView

/-!
# Markers

The marker that hides a union path in a branch stands in the branch's metadata tree, which mirrors
the branch, under the path's last name with the hide tag behind it. A path without components and
one with a `.` or `..` component have no marker, so a marker never leaves its metadata tree.

A path is hidden in a branch if it or a directory above it has a marker there. The first branch that
has an entry for the path provides it, unless a branch before that one hides it.

The markers of a branch are listed by a walk through its metadata tree: a directory before its
content and the names of one directory in byte order. Names that are no text are passed over as
markers, and are spelled with replacement characters as directories.
-/

namespace Whiteout

def unionComponents (path : Bytes) : Except Error (List Bytes) :=
  match Path.components path with
  | [] => .error (.argument (.unionRoot path))
  | parts =>
    match parts.find? fun c => c == Path.dot || c == Path.dotDot with
    | some bad => .error (.argument (.dotComponent path bad))
    | none => .ok parts

namespace UnionView

def metaRoot (view : UnionView) (rank : Nat) : Except Error BoundedPath :=
  match view.branch rank with
  | .error e => .error e
  | .ok branch => BoundedPath.build view.maxPathLen [branch.root, view.metaDir]

def tagged (view : UnionView) (path : BoundedPath) : Except Error BoundedPath := path.pushRaw view.hideTag

def markerPath (view : UnionView) (path : Bytes) (rank : Nat) : Except Error BoundedPath :=
  match unionComponents path with
  | .error e => .error e
  | .ok parts =>
    match view.metaRoot rank with
    | .error e => .error e
    | .ok root =>
      match root.pushSegments parts with
      | .error e => .error e
      | .ok mirrored => view.tagged mirrored

end UnionView

theorem unionComponents_ok {path : Bytes} {parts : List Bytes} (h : unionComponents path = .ok parts) :
    parts = Path.components path ∧ parts ≠ [] ∧ ∀ c ∈ parts, c ≠ Path.dot ∧ c ≠ Path.dotDot := by
  unfold unionComponents at h
  split at h
  · cases h
  · next parts' hne =>
    split at h
    · cases h
    · next hfind =>
      cases h
      refine ⟨rfl, hne, fun c hc => ?_⟩
      have := List.find?_eq_none.1 hfind c hc
      simp_all

end Whiteout

namespace Whiteout.UnionView

def hiddenAlong (view : UnionView) (fs : FileSystem) (mirrored : BoundedPath) : List Bytes → Bool
  | [] => false
  | component :: below =>
    match mirrored.pushSegment component with
    | .error _ => false
    | .ok next =>
      match view.tagged next with
      | .error _ => false
      | .ok marker => (fs.probe marker.text).isSome || view.hiddenAlong fs next below

def isHidden (view : UnionView) (fs : FileSystem) (path : Bytes) (rank : Nat) : Bool :=
  view.cowEnabled &&
    match unionComponents path, view.metaRoot rank with
    | .ok parts, .ok root => view.hiddenAlong fs root parts
    | _, _ => false

def entryPath (view : UnionView) (branch : Branch) (path : Bytes) : Except Error BoundedPath :=
  BoundedPath.build view.maxPathLen [branch.root, path]

def findAmong (view : UnionView) (fs : FileSystem) (path : Bytes) : List Branch → Except Error (Option Nat)
  | [] => .ok none
  | branch :: lower =>
    match view.entryPath branch path with
    | .error e => .error e
    | .ok full =>
      if (fs.probe full.text).isSome then .ok (some branch.rank)
      else if view.isHidden fs path branch.rank then .ok none
      else view.findAmong fs path lower

def findBranch (view : UnionView) (fs : FileSystem) (path : Bytes) (start : Nat) : Except Error (Option Nat) :=
  view.findAmong fs path (view.branches.drop start)

/-- Ranks are words of 64 bits, and the first one follows the last. -/
def nextRank (rank : Nat) : Nat := (rank + 1) % UInt64.size

def findBelow (view : UnionView) (fs : FileSystem) (path : Bytes) (rank : Nat) : Except Error (Option Nat) :=
  view.findBranch fs path (nextRank rank)

theorem isHidden_of_disabled {view : UnionView} (h : view.cowEnabled = false) (fs : FileSystem)
    (path : Bytes) (rank : Nat) : view.isHidden fs path rank = false := by
  simp [isHidden, h]

end Whiteout.UnionView

namespace Whiteout

structure Marker where
  rank : Nat
  unionPath : Bytes
  kind : Kind
  deriving DecidableEq, Repr

namespace Marker

def spelled (name : Name) : Bytes :=
  if (Text.decode? name).isSome then name else Text.utf8 (Text.display name)

def slashed (names : List Bytes) : Bytes := names.flatMap fun n => Path.separator :: n

def ofPlaced? (tag : Bytes) (rank : Nat) (place : Location) (e : Entry) : Option Marker :=
  match place.getLast? with
  | none => none
  | some name =>
    if (Text.decode? name).isNone then none
    else (Tag.strip? name tag).map fun hidden => ⟨rank, slashed (place.dropLast.map spelled ++ [hidden]), e.kind⟩

/-- A directory whose own path is too long to be handed to the host cannot be read. -/
def walk (tag : Bytes) (rank : Nat) (root : Bytes) : List (Location × Entry) → Except Error (List Marker)
  | [] => .ok []
  | (place, e) :: rest =>
    let path := root ++ slashed place
    if e.isDir && Path.maxLength < path.length then .error (.io (.walk path .nameTooLong))
    else (walk tag rank root rest).map ((ofPlaced? tag rank place e).toList ++ ·)

end Marker

namespace UnionView

def markers (view : UnionView) (fs : FileSystem) (rank : Nat) : Except Error (List Marker) :=
  match view.metaRoot rank with
  | .error e => .error e
  | .ok root =>
    match fs.entryAt root.text with
    | .ok (place, .dir _) => Marker.walk view.hideTag rank root.text (fs.tree.below place)
    | _ => .ok []

end UnionView

end Whiteout
