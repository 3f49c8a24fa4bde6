import Whiteout.Marker.Listing
import Whiteout.Session

/-!
# Making markers

The directories of the metadata tree that lead to the marker are made first, the top one first, and
then the marker itself. What is there already and is of the right kind counts as made. A failure
leaves what was made before it.
-/

namespace Whiteout

def metaDirMode : Nat := 0o755

def fileMarkerMode : Nat := 0o600

def dirMarkerMode : Nat := 0o700

variable [Host]

namespace FileSystem

/-- Makes a directory where none is; the flag tells whether it was made. -/
def ensureDirWith (fs : FileSystem) (path : Bytes) (mode : Nat) : Except IoError (Bool × FileSystem) :=
  match fs.makeDir path mode with
  | .ok made => .ok (true, made)
  | .error (.system .fileExists) =>
    if fs.probe path = some .dir then .ok (false, fs) else .error (.system .fileExists)
  | .error e => .error e

def placeMarker (fs : FileSystem) (path : Bytes) : Kind → Except IoError FileSystem
  | .file => fs.createFile path fileMarkerMode
  | .dir => (fs.ensureDirWith path dirMarkerMode).map Prod.snd

end FileSystem

namespace Session

/-- A metadata directory is given to the acting identity only when it was made. -/
def ensureMetaDir (s : Session) (path : Bytes) : Except Error Unit × Session :=
  match s.fs.ensureDirWith path metaDirMode with
  | .ok (true, fs) => (.ok (), { s with fs }.offer path)
  | .ok (false, _) => (.ok (), s)
  | .error e => (.error (.io e), s)

def ensureMetaDirs (s : Session) (dir : BoundedPath) : List Bytes → Except Error Unit × Session
  | [] => s.ensureMetaDir dir.text
  | component :: below =>
    match s.ensureMetaDir dir.text with
    | (.error e, made) => (.error e, made)
    | (.ok (), made) =>
      match dir.pushSegment component with
      | .error e => (.error e, made)
      | .ok next => made.ensureMetaDirs next below

def placeMarker (s : Session) (marker : Bytes) (kind : Kind) : Except Error Unit × Session :=
  match s.fs.placeMarker marker kind with
  | .error e => (.error (.io e), s)
  | .ok fs => (.ok (), { s with fs }.offer marker)

end Session

abbrev Lookup := FileSystem → Bytes → Nat → Except Error (Option Nat)

namespace UnionView

def mirrorAncestors (view : UnionView) (s : Session) (path : Bytes) (rank : Nat) : Except Error Unit × Session :=
  match unionComponents path with
  | .error e => (.error e, s)
  | .ok parts =>
    match view.metaRoot rank with
    | .error e => (.error e, s)
    | .ok root => s.ensureMetaDirs root parts.dropLast

def hide (view : UnionView) (s : Session) (path : Bytes) (rank : Nat) (kind : Kind) : Except Error Unit × Session :=
  match view.branch rank with
  | .error e => (.error e, s)
  | .ok _ =>
    match view.markerPath path rank with
    | .error e => (.error e, s)
    | .ok marker =>
      match view.mirrorAncestors s path rank with
      | (.error e, made) => (.error e, made)
      | (.ok (), made) => made.placeMarker marker.text kind

def hideIfProvided (view : UnionView) (lookup : Lookup) (s : Session) (path : Bytes) (rank : Nat) (kind : Kind) :
    Except Error Unit × Session :=
  match lookup s.fs path rank with
  | .error e => (.error e, s)
  | .ok none => (.ok (), s)
  | .ok (some _) => view.hide s path rank kind

theorem hide_of_no_branch {view : UnionView} {rank : Nat} {e : Error} (h : view.branch rank = .error e)
    (s : Session) (path : Bytes) (kind : Kind) : view.hide s path rank kind = (.error e, s) := by
  simp [hide, h]

end UnionView

end Whiteout
