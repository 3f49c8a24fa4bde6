import Whiteout.Branch.Listed
import Whiteout.Toml.Document
import Whiteout.Toml.Quoted
import Whiteout.Toml.Scalar

/-!
# Configurations

What a configuration file can say. A setting left out stands for its default, and nothing here is
checked; the checks belong to opening a union.

Keys that are no setting are passed over when TOML is read. A branch is a table, or an array of its
path and its mode in which what is missing at the end, the path apart, has its default. A mode is a
string, or a table with the mode as its one key and nothing under it. Written as TOML, the settings
come first, in a fixed order and without those not set, and then one element of an array of tables
for each branch. A path limit beyond the integers of TOML cannot be written.
-/

namespace Whiteout

structure Config where
  cowEnabled : Bool
  maxPathLen : Option Nat
  metaDir : Option String
  hideTag : Option String
  branches : List BranchSpec
  deriving DecidableEq, Repr

namespace Config

def unset : Config := ⟨true, none, none, none, []⟩

def defaultMaxPathLen : Nat := 4096

def defaultMetaDir : String := ".unionfs"

def defaultHideTag : String := "_HIDDEN~"

def effectiveMaxPathLen (c : Config) : Nat := c.maxPathLen.getD defaultMaxPathLen

def effectiveMetaDir (c : Config) : String := c.metaDir.getD defaultMetaDir

def effectiveHideTag (c : Config) : String := c.hideTag.getD defaultHideTag

end Config

end Whiteout

namespace Whiteout.Config

open Toml (Value Entries find?)

def boolOf : Option Value → Option Bool
  | none => some true
  | some (.boolean b) => some b
  | some _ => none

def limitOf : Option Value → Option (Option Nat)
  | none => some none
  | some (.integer n) => if 0 ≤ n then some (some n.toNat) else none
  | some _ => none

def textOf : Option Value → Option (Option String)
  | none => some none
  | some (.string s) => some (some (String.ofList s))
  | some _ => none

def isEmptyContainer : Value → Bool
  | .array [] => true
  | .table _ [] => true
  | _ => false

def modeOf : Option Value → Option Mode
  | none => some .readOnly
  | some (.string s) => Mode.ofText? (String.ofList s)
  | some (.table _ [(key, v)]) => if isEmptyContainer v then Mode.ofText? (String.ofList key) else none
  | some _ => none

def branchOfTable (entries : Entries) : Option BranchSpec :=
  match textOf (find? "path".toList entries), modeOf (find? "mode".toList entries) with
  | some (some path), some mode => some ⟨path, mode⟩
  | _, _ => none

def branchOf : Value → Option BranchSpec
  | .table _ entries => branchOfTable entries
  | .array items =>
    match textOf items[0]?, modeOf items[1]? with
    | some (some path), some mode => some ⟨path, mode⟩
    | _, _ => none
  | _ => none

def branchesOf : Option Value → Option (List BranchSpec)
  | none => some []
  | some (.array items) => items.mapM branchOf
  | some (.tables items) => items.mapM branchOfTable
  | some _ => none

def ofEntries (entries : Entries) : Option Config :=
  match boolOf (find? "cow_enabled".toList entries), limitOf (find? "max_path_len".toList entries),
    textOf (find? "meta_dir".toList entries), textOf (find? "hide_tag".toList entries),
    branchesOf (find? "branches".toList entries) with
  | some cowEnabled, some maxPathLen, some metaDir, some hideTag, some branches =>
    some { cowEnabled, maxPathLen, metaDir, hideTag, branches }
  | _, _, _, _, _ => none

def ofToml? (text : String) : Option Config := (Toml.parse text.toList).bind ofEntries

open Toml (Chars written maxInteger)

def setting (key : String) (value : Chars) : Chars := key.toList ++ " = ".toList ++ value ++ ['\n']

def optionalSetting (key : String) : Option Chars → Chars
  | none => []
  | some value => setting key value

def boolText (b : Bool) : Chars := if b then "true".toList else "false".toList

def branchText (b : BranchSpec) : Chars :=
  "\n[[branches]]\n".toList ++ setting "path" (written b.path.toList) ++ setting "mode" (written b.mode.text.toList)

def branchesText : List BranchSpec → Chars
  | [] => setting "branches" "[]".toList
  | branches => branches.flatMap branchText

def writable (c : Config) : Bool := c.maxPathLen.all (· ≤ maxInteger)

def tomlText (c : Config) : Chars :=
  setting "cow_enabled" (boolText c.cowEnabled) ++
    optionalSetting "max_path_len" (c.maxPathLen.map (Nat.toDigits 10)) ++
    optionalSetting "meta_dir" (c.metaDir.map fun s => written s.toList) ++
    optionalSetting "hide_tag" (c.hideTag.map fun s => written s.toList) ++
    branchesText c.branches

def toToml? (c : Config) : Option String := if c.writable then some (String.ofList c.tomlText) else none

end Whiteout.Config
