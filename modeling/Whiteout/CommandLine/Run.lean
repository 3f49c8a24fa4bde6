import Whiteout.Branch.Listed
import Whiteout.CommandLine.Command
import Whiteout.Config.Store
import Whiteout.Json.Reader
import Whiteout.Marker.Create
import Whiteout.Marker.Listing
import Whiteout.Marker.Remove
import Whiteout.Text.Utf8

/-!
# Running a command

Every invocation opens the union anew from the configuration file, with the branch list in place of
the configured branches if one is given, and does its one thing as the process that it is. What went
wrong is told in one line.

The hash is the 32-bit one of object files. Each byte is added to the shifted hash in 32-bit words,
and a non-zero top nibble is folded back four bits above the bottom and cleared.
-/

namespace Whiteout.Hash

def step (hash : UInt32) (byte : UInt8) : UInt32 :=
  let sum := (hash <<< 4) + byte.toUInt32
  let high := sum &&& 0xF0000000
  (sum ^^^ (high >>> 24)) &&& ~~~high

def elf (bytes : Bytes) : UInt32 := bytes.foldl step 0

theorem elf_append_singleton (bytes : Bytes) (b : UInt8) : elf (bytes ++ [b]) = step (elf bytes) b := by
  simp [elf]

end Whiteout.Hash

namespace Whiteout.CommandLine

open Text (utf8 display)

structure Outcome where
  exit : Nat
  output : String
  errors : String
  deriving DecidableEq, Repr

namespace Outcome

def done (output : String) : Outcome := ⟨0, output, ""⟩

def failed (e : Error) : Outcome := ⟨1, "", s!"Error: {e.message}\n"⟩

def ofResult (f : α → Outcome) : Except Error α → Outcome
  | .ok a => f a
  | .error e => failed e

end Outcome

variable [Host]

def openUnion (env : Environment) (fs : FileSystem) (config branches : Option String) :
    Except Error UnionView :=
  match Config.load env fs (config.map utf8) with
  | .error e => .error e
  | .ok loaded =>
    match branches with
    | none => (UnionView.ofConfig env.home loaded).mapError .config
    | some spec =>
      match BranchSpec.listed spec with
      | .error e => .error (.config e)
      | .ok branches => (UnionView.ofConfig env.home { loaded with branches }).mapError .config

def selectedBranches (view : UnionView) : Option Nat → Except Error (List Branch)
  | some rank => (view.branch rank).map fun b => [b]
  | none => .ok view.branches

def joinLines (lines : List String) : String := String.join (lines.map (· ++ "\n"))

def checkLine (view : UnionView) (fs : FileSystem) (path : Bytes) (b : Branch) : String :=
  let state := if view.isHidden fs path b.rank then "hidden" else "visible"
  s!"{b.rank}\t{b.mode.text}\t{state}"

def check (view : UnionView) (fs : FileSystem) (path : Bytes) (branch : Option Nat) : Outcome :=
  Outcome.ofResult (fun bs => .done (joinLines (bs.map (checkLine view fs path))))
    (selectedBranches view branch)

def resolve (view : UnionView) (fs : FileSystem) (path : Bytes) : Outcome :=
  match view.findBranch fs path 0 with
  | .error e => .failed e
  | .ok none => ⟨1, "", s!"{display path}: not present in the union\n"⟩
  | .ok (some rank) =>
    match view.branch rank with
    | .error e => .failed e
    | .ok b =>
      match view.entryPath b path with
      | .error e => .failed e
      | .ok full => .done s!"{rank}\t{b.mode.text}\t{display full.text}\n"

def hide (view : UnionView) (fs : FileSystem) (path : Bytes) (rank : Nat) (dir : Bool) :
    Outcome × FileSystem :=
  let kind := if dir then Kind.dir else Kind.file
  let (result, after) := view.hide (Session.start fs Host.process) path rank kind
  (Outcome.ofResult (fun _ => .done s!"Hid {display path} in branch {rank} ({kind.text} marker)\n")
    result, after.fs)

def removedLine (path : Bytes) (rank : Nat) : String :=
  s!"Removed whiteout for {display path} in branch {rank}"

def failureLine (f : CleanupFailure) : String :=
  s!"Warning: could not remove {display f.path} in branch {f.rank}: {f.reason.text}"

def reportOutcome (path : Bytes) (r : CleanupReport) : Outcome :=
  let removed := r.removed.map (removedLine path)
  let lines := if r.removed.isEmpty && r.isClean then [s!"No whiteouts for {display path}"] else removed
  ⟨0, joinLines lines, joinLines (r.failures.map failureLine)⟩

def unhide (view : UnionView) (fs : FileSystem) (path : Bytes) (last : Option Nat) :
    Outcome × FileSystem :=
  let (result, after) := view.unhide fs path last
  (Outcome.ofResult (reportOutcome path) result, after)

def markersOf (view : UnionView) (fs : FileSystem) : List Branch → Except Error (List Marker)
  | [] => .ok []
  | b :: others =>
    match view.markers fs b.rank with
    | .error e => .error e
    | .ok found => (markersOf view fs others).map (found ++ ·)

def jsonString (s : String) : String := String.ofList (Json.written s.toList)

def markerLine (m : Marker) : String := s!"{m.rank}\t{m.kind.text}\t{display m.unionPath}"

def markerJson (m : Marker) : String :=
  "\x7b\"rank\":" ++ toString m.rank ++ ",\"union_path\":" ++ jsonString (display m.unionPath) ++
    ",\"kind\":" ++ jsonString m.kind.text ++ "\x7d"

def markersText (json : Bool) (ms : List Marker) : String :=
  if json then "[" ++ String.intercalate "," (ms.map markerJson) ++ "]\n" else joinLines (ms.map markerLine)

def list (view : UnionView) (fs : FileSystem) (branch : Option Nat) (json : Bool) : Outcome :=
  match selectedBranches view branch with
  | .error e => .failed e
  | .ok bs => Outcome.ofResult (fun ms => .done (markersText json ms)) (markersOf view fs bs)

def hash (input : String) : Outcome := .done s!"{(Hash.elf (utf8 input)).toNat}\n"

def perform (view : UnionView) (fs : FileSystem) : Command → Outcome × FileSystem
  | .check path branch => (check view fs (utf8 path) branch, fs)
  | .resolve path => (resolve view fs (utf8 path), fs)
  | .hide path rank dir => hide view fs (utf8 path) rank dir
  | .unhide path last => unhide view fs (utf8 path) last
  | .list branch json => (list view fs branch json, fs)
  | .hash input => (hash input, fs)

/-- Hashing needs no union and opens none. -/
def run (env : Environment) (fs : FileSystem) (i : Invocation) : Outcome × FileSystem :=
  match i.command with
  | .hash input => (hash input, fs)
  | command =>
    match openUnion env fs i.config i.branches with
    | .error e => (.failed e, fs)
    | .ok view => perform view fs command

end Whiteout.CommandLine
