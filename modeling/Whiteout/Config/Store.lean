import Whiteout.Config.Basic
import Whiteout.FileSystem.Operations
import Whiteout.Host
import Whiteout.Text.Pieces

/-!
# Configuration files

Where the configuration is looked for is up to three variables of the environment: the home
directory, a directory that overrides all else, and the base directory of user configurations. Where
the first says nothing, the home directory is the one that the host's accounts name. When no path is
given the default one is used, and if nothing is there nothing is set. Saving makes the missing
directories first, and those stay even if the rest fails.
-/

namespace Whiteout

structure Environment where
  home : Option String
  configDirectory : Option String
  configHome : Option String
  deriving DecidableEq, Repr

namespace Environment

open Text (utf8 trim)

/-- The path with white space trimmed and a leading `~/`, or a lone `~`, replaced by the home directory. -/
def expandTilde (home : Option String) (path : String) : Bytes :=
  let trimmed := trim path.toList
  match home, trimmed with
  | some home, '~' :: '/' :: rest => Path.join (utf8 home) (utf8 (String.ofList rest))
  | some home, ['~'] => utf8 home
  | _, _ => utf8 (String.ofList trimmed)

def projectDirectory : Bytes := utf8 "unionfs-cow"

variable [Host]

def homeDir? (env : Environment) : Option Bytes :=
  ((env.home.map utf8).filter fun h => !h.isEmpty).or (Host.accountHome.filter fun h => !h.isEmpty)

/-- A relative base directory of user configurations counts as not set. -/
def configDir? (env : Environment) : Option Bytes :=
  match env.configDirectory with
  | some dir => some (utf8 dir)
  | none =>
    match env.homeDir? with
    | none => none
    | some home =>
      let base := match (env.configHome.map utf8).filter Path.isAbsolute with
        | some dir => dir
        | none => Path.join home (utf8 ".config")
      some (Path.join base projectDirectory)

def configDir (env : Environment) : Except Error Bytes :=
  match env.configDir? with
  | some dir => .ok dir
  | none => .error (.config .noConfigDirectory)

def configPath (env : Environment) : Except Error Bytes :=
  env.configDir.map fun dir => Path.join dir (utf8 "config.toml")

end Environment

end Whiteout

namespace Whiteout.Config

def loadFrom (fs : FileSystem) (path : Bytes) : Except Error Config :=
  match fs.textAt path with
  | .error e => .error (.config (.unreadable path e))
  | .ok text =>
    match ofToml? text with
    | some config => .ok config
    | none => .error (.config .malformed)

variable [Host]

def loadDefault (env : Environment) (fs : FileSystem) : Except Error Config :=
  match env.configPath with
  | .error e => .error e
  | .ok path => if fs.exists? path then loadFrom fs path else .ok unset

def load (env : Environment) (fs : FileSystem) : Option Bytes → Except Error Config
  | some path => loadFrom fs path
  | none => loadDefault env fs

def makeParent (fs : FileSystem) (path : Bytes) : Except Error Unit × FileSystem :=
  match Path.parent? path with
  | none => (.ok (), fs)
  | some parent =>
    match fs.makeDirs (parent.length + 1) parent with
    | (.ok (), made) => (.ok (), made)
    | (.error e, made) => (.error (.config (.directoryNotMade e)), made)

def save (c : Config) (fs : FileSystem) (path : Bytes) : Except Error Unit × FileSystem :=
  match makeParent fs path with
  | (.error e, made) => (.error e, made)
  | (.ok (), made) =>
    match c.toToml? with
    | none => (.error (.config .limitNotWritable), made)
    | some text =>
      match made.writeAt path (Text.utf8 text) none with
      | (.error e, after) => (.error (.config (.notWritten e)), after)
      | (.ok (), saved) => (.ok (), saved)

end Whiteout.Config
