import Whiteout.Error
import Whiteout.Path.Basic
import Whiteout.Tree.Basic

/-!
# From path text to places

A file system is a tree with a working directory. `resolve` follows a path name by name: every name
before the last must be a directory or a link, a link is replaced by its target, and at most forty
links are followed. A separator at the end stands for one more, empty, name, which asks for a
directory. Permissions are recorded but not enforced: all entries belong to whoever makes the
requests. The tree holds the permission bits of its entries and the special bits stand beside it,
since special bits are all that giving an entry away can change.
-/

namespace Whiteout

structure FileSystem where
  tree : Tree
  cwd : Location
  special : Location → Nat := fun _ => 0

namespace FileSystem

open Whiteout.Path (dot dotDot components isAbsolute endsWithSeparator)

def maxLinks : Nat := 40

/-- What becomes of the last name: a link is kept or followed, or a file is to be created there. -/
inductive Purpose
  | keepLink
  | followLink
  | createFile
  deriving DecidableEq, Repr

/-- Where a path leads: to a directory that it does not name, or to a name in a directory. -/
inductive Spot
  | self (place : Location)
  | named (place : Location)
  deriving DecidableEq, Repr

def Spot.place : Spot → Location
  | .self place => place
  | .named place => place

def hops (path : Bytes) : List Name :=
  let names := components path
  if endsWithSeparator path && !names.isEmpty then names ++ [[]] else names

def startOf (here : Location) (path : Bytes) : Location := if isAbsolute path then [] else here

/-- One stretch of a walk, up to the next link to follow, which is left to `follow`. -/
def walkWith (t : Tree) (purpose : Purpose) (follow : Location → List Name → Except Errno Spot) :
    Location → List Name → Except Errno Spot
  | here, [] => .ok (.self here)
  | here, name :: rest =>
    match t.get? here with
    | none => .error .notFound
    | some (.file _ _) => .error .notDirectory
    | some (.link _) => .error .notDirectory
    | some (.dir _) =>
      if name = [] ∨ name = dot then walkWith t purpose follow here rest
      else if name = dotDot then walkWith t purpose follow here.dropLast rest
      else if purpose = .createFile ∧ rest = [[]] then .error .isDirectory
      else if Path.maxNameLength < name.length then .error .nameTooLong
      else match t.get? (here ++ [name]) with
        | some (.link target) =>
          if rest = [] ∧ purpose = .keepLink then .ok (.named (here ++ [name]))
          else follow (startOf here target) (hops target ++ rest)
        | none => if rest = [] then .ok (.named (here ++ [name])) else .error .notFound
        | some _ =>
          if rest = [] then .ok (.named (here ++ [name])) else walkWith t purpose follow (here ++ [name]) rest

def walk (t : Tree) (purpose : Purpose) : Nat → Location → List Name → Except Errno Spot
  | 0 => walkWith t purpose fun _ _ => .error .linkLoop
  | links + 1 => walkWith t purpose (walk t purpose links)

def pathFault? (path : Bytes) : Option IoError :=
  if 0 ∈ path then some .nulInPath
  else if path = [] then some (.system .notFound)
  else if Path.maxLength < path.length then some (.system .nameTooLong)
  else none

theorem pathFault?_eq_none_iff {path : Bytes} : pathFault? path = none ↔ Path.isAdmissible path = true := by
  simp only [Path.isAdmissible_iff, pathFault?]
  split
  · simp_all
  · split
    · simp_all
    · split <;> simp_all

def resolveHops (fs : FileSystem) (path : Bytes) (names : List Name) (purpose : Purpose) : Except IoError Spot :=
  match pathFault? path with
  | some fault => .error fault
  | none => (walk fs.tree purpose maxLinks (startOf fs.cwd path) names).mapError .system

def resolve (fs : FileSystem) (path : Bytes) (purpose : Purpose) : Except IoError Spot :=
  fs.resolveHops path (hops path) purpose

/-- The place to be made a directory: here a separator at the end asks for nothing. -/
def resolveNew (fs : FileSystem) (path : Bytes) : Except IoError Spot :=
  fs.resolveHops path (components path) .keepLink

end FileSystem

end Whiteout
