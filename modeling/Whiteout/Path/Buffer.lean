import Whiteout.Error
import Whiteout.Path.Basic

/-!
# Paths of bounded length

A `BoundedPath` grows by segments, with exactly one separator at each join, or by raw bytes. One
slot of the limit is kept for a terminator, so a path of `limit - 1` bytes is the longest. A step
that does not fit is an error and yields no new path.

A buffer is a bounded path that is extended where it stands. A push works out the new length, asks
whether it fits, and writes afterwards, first a separator if one is missing and then the bytes. An
error ends the push; what has been written until then stays written.
-/

namespace Whiteout

open Whiteout.Path (separator isAbsolute endsWithSeparator)

structure BoundedPath where
  text : Bytes
  limit : Nat
  deriving DecidableEq, Repr

namespace BoundedPath

def new (limit : Nat) : BoundedPath := ⟨[], limit⟩

def extendTo (path : BoundedPath) (text : Bytes) : Except Error BoundedPath :=
  if path.limit < text.length + 1 then .error (.nameTooLong text.length path.limit)
  else .ok { path with text }

def pushRaw (path : BoundedPath) (bytes : Bytes) : Except Error BoundedPath :=
  path.extendTo (path.text ++ bytes)

def joined (text segment : Bytes) : Bytes :=
  match endsWithSeparator text, isAbsolute segment with
  | true, true => text ++ segment.tail
  | false, false => text ++ separator :: segment
  | _, _ => text ++ segment

def pushSegment (path : BoundedPath) (segment : Bytes) : Except Error BoundedPath :=
  if segment.isEmpty then .error (.argument .emptySegment)
  else if path.text.isEmpty then path.pushRaw segment
  else path.extendTo (joined path.text segment)

def pushSegments (path : BoundedPath) : List Bytes → Except Error BoundedPath
  | [] => .ok path
  | segment :: others =>
    match path.pushSegment segment with
    | .ok next => next.pushSegments others
    | .error e => .error e

def build (limit : Nat) : List Bytes → Except Error BoundedPath
  | [] => .error (.argument .noSegment)
  | segments => (new limit).pushSegments segments

end BoundedPath

end Whiteout

namespace Whiteout.BoundedPath

open Whiteout.Path (separator isAbsolute endsWithSeparator)

abbrev Edit := ExceptT Error (StateM BoundedPath)

namespace Edit

variable {α β : Type}

/-- The answer of an edit and the buffer that it leaves, also after an error. -/
def apply (edit : Edit α) (path : BoundedPath) : Except Error α × BoundedPath :=
  (edit.run.run path).run

theorem apply_get (path : BoundedPath) : (get : Edit BoundedPath).apply path = (.ok path, path) :=
  rfl

theorem apply_bind (edit : Edit α) (f : α → Edit β) (path : BoundedPath) :
    (edit >>= f).apply path = match edit.apply path with
      | (.ok a, next) => (f a).apply next
      | (.error e, next) => (.error e, next) := by
  unfold apply
  rw [ExceptT.run_bind, StateT.run_bind, Id.run_bind]
  obtain ⟨outcome, next⟩ := (edit.run.run path).run
  cases outcome with
  | error e => rfl
  | ok a => rfl

end Edit

def requireRoom (length : Nat) : Edit Unit := do
  let path ← get
  if path.limit < length + 1 then throw (.nameTooLong length path.limit)

def write (bytes : Bytes) : Edit Unit :=
  modify fun path => { path with text := path.text ++ bytes }

def appendRaw (bytes : Bytes) : Edit Unit := do
  let path ← get
  requireRoom (path.text.length + bytes.length)
  write bytes

structure Portion where
  separated : Bool
  bytes : Bytes

def Portion.length (portion : Portion) : Nat := portion.separated.toNat + portion.bytes.length

def portion (text segment : Bytes) : Portion :=
  match endsWithSeparator text, isAbsolute segment with
  | true, true => ⟨false, segment.tail⟩
  | false, false => ⟨true, segment⟩
  | _, _ => ⟨false, segment⟩

def writePortion : Portion → Edit Unit
  | ⟨true, bytes⟩ => do
    write [separator]
    write bytes
  | ⟨false, bytes⟩ => write bytes

def appendSegment (segment : Bytes) : Edit Unit := do
  let path ← get
  if segment.isEmpty then throw (.argument .emptySegment)
  else if path.text.isEmpty then appendRaw segment
  else
    requireRoom (path.text.length + (portion path.text segment).length)
    writePortion (portion path.text segment)

inductive Push
  | segment (bytes : Bytes)
  | raw (bytes : Bytes)
  deriving DecidableEq, Repr

def Push.edit : Push → Edit Unit
  | .segment bytes => appendSegment bytes
  | .raw bytes => appendRaw bytes

def perform (path : BoundedPath) (push : Push) : Except Error Unit × BoundedPath :=
  push.edit.apply path

def run (path : BoundedPath) : List Push → BoundedPath
  | [] => path
  | push :: others => (path.perform push).2.run others

theorem apply_write (bytes : Bytes) (path : BoundedPath) :
    (write bytes).apply path = (.ok (), { path with text := path.text ++ bytes }) := rfl

theorem apply_requireRoom (length : Nat) (path : BoundedPath) :
    (requireRoom length).apply path =
      if path.limit < length + 1 then (.error (.nameTooLong length path.limit), path)
      else (.ok (), path) := by
  rw [requireRoom, Edit.apply_bind, Edit.apply_get]
  dsimp only
  split <;> rfl

end Whiteout.BoundedPath
