import Whiteout.Marker.Listing

/-!
# Removing markers

Markers of a path are removed branch by branch. A marker that cannot be deleted is reported and does
not stop the others; only a marker path that cannot be built does, and then what was deleted before
stays deleted.
-/

namespace Whiteout

structure CleanupFailure where
  rank : Nat
  path : Bytes
  reason : IoError
  deriving DecidableEq, Repr

structure CleanupReport where
  removed : List Nat
  failures : List CleanupFailure
  deriving DecidableEq, Repr

namespace CleanupReport

def empty : CleanupReport := ⟨[], []⟩

def isClean (r : CleanupReport) : Bool := r.failures.isEmpty

def withRemoved (rank : Nat) (r : CleanupReport) : CleanupReport := { r with removed := rank :: r.removed }

def withFailure (f : CleanupFailure) (r : CleanupReport) : CleanupReport := { r with failures := f :: r.failures }

end CleanupReport

namespace FileSystem

/-- Deletes what stands at a marker path, a directory only if it is empty; `none` if nothing is there. -/
def removeMarker (fs : FileSystem) (path : Bytes) : Option (Except IoError FileSystem) :=
  match fs.probe path with
  | none => none
  | some .file => some (fs.unlink path)
  | some .dir => some (fs.unlinkDir path)

end FileSystem

namespace UnionView

def unhideIn (view : UnionView) (fs : FileSystem) (path : Bytes) : List Nat → Except Error CleanupReport × FileSystem
  | [] => (.ok .empty, fs)
  | rank :: others =>
    match view.markerPath path rank with
    | .error e => (.error e, fs)
    | .ok marker =>
      match fs.removeMarker marker.text with
      | none => view.unhideIn fs path others
      | some (.ok without) =>
        let (report, final) := view.unhideIn without path others
        (report.map (.withRemoved rank), final)
      | some (.error (.system .notFound)) => view.unhideIn fs path others
      | some (.error reason) =>
        let (report, final) := view.unhideIn fs path others
        (report.map (.withFailure ⟨rank, marker.text, reason⟩), final)

def unhideCount (view : UnionView) : Option Nat → Nat
  | none => view.branches.length
  | some last => min (last + 1) view.branches.length

def unhide (view : UnionView) (fs : FileSystem) (path : Bytes) (last : Option Nat) :
    Except Error CleanupReport × FileSystem :=
  if view.cowEnabled then view.unhideIn fs path (List.range (view.unhideCount last)) else (.ok .empty, fs)

theorem unhideCount_le (view : UnionView) (last : Option Nat) :
    view.unhideCount last ≤ view.branches.length := by
  cases last with
  | none => exact Nat.le_refl _
  | some last => exact Nat.min_le_right _ _

theorem unhide_of_disabled {view : UnionView} (h : view.cowEnabled = false) (fs : FileSystem) (path : Bytes)
    (last : Option Nat) : view.unhide fs path last = (.ok .empty, fs) := by
  simp [unhide, h]

end UnionView

end Whiteout
