import Whiteout.FileSystem.Operations

/-!
# Changes from outside

Files come and go without the library's doing. An `Edit` is one such change; directories missing
above its path are made first and stay even if the edit itself fails.
-/

namespace Whiteout.FileSystem

inductive Change
  | dir
  | file (content : Bytes)
  | link (target : Bytes)
  | delete
  deriving DecidableEq, Repr

structure Edit where
  path : Bytes
  change : Change
  deriving DecidableEq, Repr

variable [Host]

def editDirMode : Nat := 0o755

def editFileMode : Nat := 0o644

/-- What stands before each separator, without the empty text, outermost first. -/
def ancestors (path : Bytes) : List Bytes :=
  (List.range path.length).filterMap fun n =>
    if 0 < n && path[n]? == some Path.separator then some (path.take n) else none

def ensureDir (fs : FileSystem) (path : Bytes) : Except IoError FileSystem :=
  if fs.isDirectory path then .ok fs else fs.makeDir path editDirMode

def ensureDirs (fs : FileSystem) : List Bytes → Bool × FileSystem
  | [] => (true, fs)
  | dir :: others =>
    match fs.ensureDir dir with
    | .ok made => made.ensureDirs others
    | .error _ => (false, fs)

def makeLink (fs : FileSystem) (path target : Bytes) : Except IoError FileSystem :=
  match pathFault? target with
  | some fault => .error fault
  | none =>
    if Path.endsWithSeparator path then
      .error (.system (if (fs.entryAt path).isOk then .fileExists else .notFound))
    else match fs.resolveNew path with
      | .error e => .error e
      | .ok spot => fs.addNew (.link target) spot

def clear (fs : FileSystem) (place : Location) : FileSystem :=
  (fs.tree.below place).foldl (fun fs x => fs.erase (place ++ x.1)) fs

/-- A directory that the path reaches without naming it, through a dot or a link, loses its content
but stays, and then the deletion fails. -/
def deleteAll (fs : FileSystem) (path : Bytes) : Bool × FileSystem :=
  match fs.resolve path .keepLink with
  | .error _ => (false, fs)
  | .ok (.named place) => if (fs.tree.get? place).isSome then (true, fs.erase place) else (false, fs)
  | .ok (.self place) =>
    match fs.resolveNew path with
    | .ok (.named named) => if named = place then (true, fs.erase place) else (false, fs.clear place)
    | _ => (false, fs.clear place)

def settle (fs : FileSystem) : Except IoError FileSystem → Bool × FileSystem
  | .ok done => (true, done)
  | .error _ => (false, fs)

def Change.perform (fs : FileSystem) (path : Bytes) : Change → Bool × FileSystem
  | .dir => fs.settle (fs.ensureDir path)
  | .file content =>
    let (result, after) := fs.writeAt path content (some editFileMode)
    (result.isOk, after)
  | .link target => fs.settle (fs.makeLink path target)
  | .delete => fs.deleteAll path

def edit (fs : FileSystem) (e : Edit) : Bool × FileSystem :=
  match if e.change = .delete then (true, fs) else fs.ensureDirs (ancestors e.path) with
  | (false, made) => (false, made)
  | (true, made) => e.change.perform made e.path

def fresh (cwd : Location) : FileSystem :=
  { tree := (List.range cwd.length).foldl (fun t n => t.put (cwd.take (n + 1)) (.dir editDirMode)) .empty, cwd }

def contents (fs : FileSystem) : List (Location × Entry) := fs.tree.below fs.cwd

def editAll (fs : FileSystem) (edits : List Edit) : FileSystem :=
  edits.foldl (fun fs e => (fs.edit e).2) fs

end Whiteout.FileSystem
