import Whiteout.CommandLine.Run
import Whiteout.FileSystem.Edit

/-!
# The program

Surveys the disk where a command will look, runs the command on the survey, and makes on the disk
the entries that are new and takes away those that are gone. The places surveyed are the
configuration file and, once that is read, all that the branches hold. A link is recorded as leading
to its final target. Of the host are asked the identity of the process, its home directory and its
umask.
-/

namespace Whiteout.Program

open Text (utf8 display)
open CommandLine (Invocation)

def pathOf (place : Location) : String := display (Path.separator :: (Marker.slashed place).drop 1)

def diskEntry (dir : Location) (name : Name) : IO.FS.DirEntry := ⟨pathOf dir, display name⟩

def targetOf (path : String) : IO String := do
  try
    let target ← IO.FS.realPath path
    return target.toString
  catch _ => return path

def record (reading : Bool) (fs : FileSystem) (dir : Location) (name : Name) : IO FileSystem := do
  let place := dir ++ [name]
  let path := pathOf place
  try
    match (← (diskEntry dir name).path.symlinkMetadata).type with
    | .dir => return fs.put place (.dir FileSystem.editDirMode)
    | .symlink => return fs.put place (.link (utf8 (← targetOf path)))
    | _ =>
      let content ← if reading then pure (← IO.FS.readBinFile path).toList else pure []
      return fs.put place (.file FileSystem.editFileMode content)
  catch _ => return fs

partial def recordBelow (fs : FileSystem) (dir : Location) (name : Name) : IO FileSystem := do
  let place := dir ++ [name]
  let mut fs ← record false fs dir name
  if fs.tree.isDirAt place then
    for e in ← (diskEntry dir name).path.readDir do
      fs ← recordBelow fs place (utf8 e.fileName)
  return fs

def recordPath (fs : FileSystem) (path : Bytes) : IO FileSystem := do
  let mut fs := fs
  let mut dir : Location := []
  for name in Path.components (Path.join (utf8 (pathOf fs.cwd)) path) do
    if name == Path.dotDot then dir := dir.dropLast
    else if name != Path.dot then
      fs ← record true fs dir name
      dir := dir ++ [name]
  return fs

def recordTarget (fs : FileSystem) (path : Bytes) : IO FileSystem := do
  let fs ← recordPath fs path
  recordPath fs (utf8 (← targetOf (display (Path.join (utf8 (pathOf fs.cwd)) path))))

section Surveys

variable [Host]

def surveyConfig (env : Environment) (i : Invocation) (fs : FileSystem) : IO FileSystem :=
  match (i.config.map utf8).or env.configPath.toOption with
  | some path => recordTarget fs path
  | none => return fs

def surveyBranches (view : UnionView) (fs : FileSystem) : IO FileSystem := do
  let mut fs := fs
  for b in view.branches do
    fs ← recordTarget fs b.root
    if let .ok (place, _) := fs.targetAt b.root then
      if let some name := place.getLast? then fs ← recordBelow fs place.dropLast name
  return fs

def survey (env : Environment) (i : Invocation) (cwd : Location) : IO FileSystem := do
  let fs ← surveyConfig env i (FileSystem.fresh cwd)
  match CommandLine.openUnion env fs i.config i.branches with
  | .ok view => surveyBranches view fs
  | .error _ => return fs

end Surveys

def makeEntry (place : Location) : Entry → IO Unit
  | .dir mode => do
    IO.FS.createDir (pathOf place)
    IO.Prim.setAccessRights (pathOf place) mode.toUInt32
  | .file mode content => do
    IO.FS.writeBinFile (pathOf place) ⟨content.toArray⟩
    IO.Prim.setAccessRights (pathOf place) mode.toUInt32
  | .link _ => return

def takeAway (place : Location) (e : Entry) : IO Unit :=
  if e.isDir then IO.FS.removeDir (pathOf place) else IO.FS.removeFile (pathOf place)

def publish (before after : FileSystem) : IO Unit := do
  for (place, e) in before.tree.entries.reverse do
    if (after.tree.get? place).isNone then takeAway place e
  for (place, e) in after.tree.entries do
    if (before.tree.get? place).isNone then makeEntry place e

def octal (digits : String) : Nat := digits.toList.foldl (fun n c => 8 * n + (c.toNat - '0'.toNat)) 0

def statusOf (status : List String) (key : String) : Option String :=
  status.findSome? fun line =>
    match line.splitOn "\t" with
    | label :: value :: _ => if label = key then some value else none
    | _ => none

def accountHome (accounts : List String) (uid : Nat) : Option Bytes :=
  accounts.findSome? fun line =>
    let fields := line.splitOn ":"
    if fields[2]? = some (toString uid) then fields[5]?.map utf8 else none

def host : IO Host := do
  let status := (← IO.FS.lines "/proc/self/status").toList
  let number key := (statusOf status key).bind String.toNat?
  let uid := (number "Uid:").getD 0
  return { Host.plain with
    process := ⟨uid, (number "Gid:").getD 0⟩
    accountHome := accountHome (← IO.FS.lines "/etc/passwd").toList uid
    umask := ((statusOf status "Umask:").map octal).getD 0 }

def environment : IO Environment := do
  return ⟨← IO.getEnv "HOME", ← IO.getEnv "UNIONFS_COW_CONFIG_DIR", ← IO.getEnv "XDG_CONFIG_HOME"⟩

def performOn [Host] (i : Invocation) : IO UInt32 := do
  let env ← environment
  let before ← survey env i (Path.components (utf8 (← IO.currentDir).toString))
  let (outcome, after) := CommandLine.run env before i
  publish before after
  IO.print outcome.output
  IO.eprint outcome.errors
  return outcome.exit.toUInt32

def execute (args : List String) : IO UInt32 := do
  match CommandLine.parse args with
  | none =>
    IO.eprintln "error: these arguments are not those of a command"
    return 2
  | some invocation => @performOn (← host) invocation

end Whiteout.Program

def main (args : List String) : IO UInt32 := Whiteout.Program.execute args
