import Whiteout.FileSystem.Resolve
import Whiteout.Host

/-!
# Requests to the host

Each request either answers with the new file system or fails and changes nothing, except that a
write can break off and making a chain of directories can stop half way.
-/

namespace Whiteout.FileSystem

def existing (fs : FileSystem) (spot : Spot) : Except IoError (Location × Entry) :=
  match fs.tree.get? spot.place with
  | some e => .ok (spot.place, e)
  | none => .error (.system .notFound)

def entryAt (fs : FileSystem) (path : Bytes) : Except IoError (Location × Entry) :=
  match fs.resolve path .keepLink with
  | .ok spot => fs.existing spot
  | .error e => .error e

def targetAt (fs : FileSystem) (path : Bytes) : Except IoError (Location × Entry) :=
  match fs.resolve path .followLink with
  | .ok spot => fs.existing spot
  | .error e => .error e

theorem existing_ok {fs : FileSystem} {spot : Spot} {place : Location} {e : Entry}
    (h : fs.existing spot = .ok (place, e)) : fs.tree.get? place = some e := by
  unfold existing at h
  split at h
  · next hget => cases h; exact hget
  · cases h

theorem entryAt_ok {fs : FileSystem} {path : Bytes} {place : Location} {e : Entry}
    (h : fs.entryAt path = .ok (place, e)) : fs.tree.get? place = some e := by
  unfold entryAt at h
  split at h
  · exact existing_ok h
  · cases h

theorem targetAt_ok {fs : FileSystem} {path : Bytes} {place : Location} {e : Entry}
    (h : fs.targetAt path = .ok (place, e)) : fs.tree.get? place = some e := by
  unfold targetAt at h
  split at h
  · exact existing_ok h
  · cases h

def probe (fs : FileSystem) (path : Bytes) : Option Kind :=
  match fs.entryAt path with
  | .ok (_, e) => some e.kind
  | .error _ => none

def isDirectory (fs : FileSystem) (path : Bytes) : Bool :=
  match fs.targetAt path with
  | .ok (_, e) => e.isDir
  | .error _ => false

def exists? (fs : FileSystem) (path : Bytes) : Bool := (fs.targetAt path).isOk

def put (fs : FileSystem) (place : Location) (e : Entry) : FileSystem :=
  { fs with tree := fs.tree.put place e }

def erase (fs : FileSystem) (place : Location) : FileSystem := { fs with tree := fs.tree.erase place }

def setSpecial (fs : FileSystem) (place : Location) (bits : Nat) : FileSystem :=
  { fs with special := fun l => if l = place then bits else fs.special l }

variable [Host]

def inherited (fs : FileSystem) (place : Location) : Entry → Nat
  | .dir _ => fs.special place.dropLast &&& Host.inherits
  | _ => 0

def add (fs : FileSystem) (place : Location) (e : Entry) : FileSystem :=
  (fs.put place e).setSpecial place (fs.inherited place e)

def addNew (fs : FileSystem) (e : Entry) : Spot → Except IoError FileSystem
  | .self _ => .error (.system .fileExists)
  | .named place =>
    match fs.tree.get? place with
    | some _ => .error (.system .fileExists)
    | none => .ok (fs.add place e)

def makeDir (fs : FileSystem) (path : Bytes) (mode : Nat) : Except IoError FileSystem :=
  match fs.resolveNew path with
  | .error e => .error e
  | .ok spot => fs.addNew (.dir (Host.granted mode)) spot

/-- Opens for writing and gives the file's place; a missing file is created empty. -/
def openFile (fs : FileSystem) (path : Bytes) (mode : Nat) : Except IoError (Location × FileSystem) :=
  match fs.resolve path .createFile with
  | .error e => .error e
  | .ok (.self _) => .error (.system .isDirectory)
  | .ok (.named place) =>
    match fs.tree.get? place with
    | some (.dir _) => .error (.system .isDirectory)
    | some _ => .ok (place, fs)
    | none => .ok (place, fs.add place (.file (Host.granted mode) []))

def createFile (fs : FileSystem) (path : Bytes) (mode : Nat) : Except IoError FileSystem :=
  (fs.openFile path mode).map Prod.snd

def fill (fs : FileSystem) (place : Location) (content : Bytes) (mode? : Option Nat) : FileSystem :=
  match fs.tree.get? place with
  | some (.file mode _) =>
    (fs.put place (.file (mode?.getD mode) content)).setSpecial place
      (Host.without (fs.special place) (Host.takenByWriting mode))
  | _ => fs

def newFileMode : Nat := 0o666

def newDirMode : Nat := 0o777

/-- A write that breaks off leaves in the file what it got down before. -/
def writeAt (fs : FileSystem) (path : Bytes) (content : Bytes) (mode? : Option Nat) :
    Except IoError Unit × FileSystem :=
  match fs.openFile path newFileMode with
  | .error e => (.error e, fs)
  | .ok (place, opened) =>
    match Host.breaksOff? place content with
    | some (written, reason) => (.error reason, opened.fill place (content.take written) mode?)
    | none => (.ok (), opened.fill place content mode?)

def contentAt (fs : FileSystem) (path : Bytes) : Except IoError Bytes :=
  match fs.targetAt path with
  | .error e => .error e
  | .ok (_, .file _ content) => .ok content
  | .ok _ => .error (.system .isDirectory)

def textAt (fs : FileSystem) (path : Bytes) : Except IoError String :=
  match fs.contentAt path with
  | .error e => .error e
  | .ok content =>
    match Text.decode? content with
    | some text => .ok text
    | none => .error .notUtf8

def unlink (fs : FileSystem) (path : Bytes) : Except IoError FileSystem :=
  match fs.entryAt path with
  | .error e => .error e
  | .ok (place, e) => if e.isDir then .error (.system .isDirectory) else .ok (fs.erase place)

def unlinkDir (fs : FileSystem) (path : Bytes) : Except IoError FileSystem :=
  match fs.entryAt path with
  | .error e => .error e
  | .ok (place, e) =>
    if !e.isDir then .error (.system .notDirectory)
    else if fs.tree.isEmptyAt place then .ok (fs.erase place)
    else .error (.system .notEmpty)

/-- The special bits that an entry keeps when it is given away; a directory keeps them all. -/
def keptBits (e : Entry) (bits : Nat) : Nat :=
  if e.isDir then bits else Host.without bits (Host.takenByGiving e.permissions)

def giveAway (fs : FileSystem) (place : Location) (e : Entry) : FileSystem :=
  fs.setSpecial place (keptBits e (fs.special place))

def changeOwner (fs : FileSystem) (path : Bytes) (id : Identity) : Except IoError FileSystem :=
  match fs.entryAt path with
  | .error e => .error e
  | .ok (place, e) =>
    match Host.refusal? place id with
    | some reason => .error (.system reason)
    | none => .ok (fs.giveAway place e)

def makeDirs (fs : FileSystem) : Nat → Bytes → Except IoError Unit × FileSystem
  | 0, _ => (.error .treeNotMade, fs)
  | depth + 1, path =>
    if path = [] then (.ok (), fs)
    else match fs.makeDir path newDirMode with
      | .ok made => (.ok (), made)
      | .error (.system .notFound) =>
        match Path.parent? path with
        | none => (.error .treeNotMade, fs)
        | some parent =>
          match fs.makeDirs depth parent with
          | (.error e, made) => (.error e, made)
          | (.ok (), made) =>
            match made.makeDir path newDirMode with
            | .ok final => (.ok (), final)
            | .error e => (if made.isDirectory path then .ok () else .error e, made)
      | .error e => (if fs.isDirectory path then .ok () else .error e, fs)

theorem keptBits_keptBits (e : Entry) (bits : Nat) : keptBits e (keptBits e bits) = keptBits e bits := by
  unfold keptBits
  split
  · rfl
  · exact Host.without_without _ _

theorem giveAway_giveAway (fs : FileSystem) (place : Location) (e : Entry) :
    (fs.giveAway place e).giveAway place e = fs.giveAway place e := by
  simp only [giveAway, setSpecial, if_true, keptBits_keptBits]
  congr 1
  funext l
  split <;> rfl

omit [Host] in
theorem setSpecial_self (fs : FileSystem) (place : Location) : fs.setSpecial place (fs.special place) = fs := by
  have hsame : (fun l => if l = place then fs.special place else fs.special l) = fs.special := by
    funext l
    split
    · next h => rw [h]
    · rfl
  rw [setSpecial, hsame]

omit [Host] in
theorem probe_eq_none_iff (fs : FileSystem) (path : Bytes) :
    fs.probe path = none ↔ ∃ e, fs.entryAt path = .error e := by
  unfold probe
  split <;> simp_all

end Whiteout.FileSystem
