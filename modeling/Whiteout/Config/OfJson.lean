import Whiteout.Config.Basic
import Whiteout.Json.Reader

/-!
# Configurations read from JSON

A configuration and a branch are objects, or arrays of their fields in order with what is missing at
the end set to its default. A null counts as not set where a setting may be left out. An object's
keys must be texts and no setting may occur twice; keys that are no setting are passed over.
-/

namespace Whiteout.Config

open Json (Value Chars)

/-- How a record's fields are supplied, in order; `none` inside for a field that is missing. -/
def fieldsOfMembers (names : List String) (members : List (Option Chars × Value)) : Option (List (Option Value)) :=
  if members.any fun m => m.1.isNone then none
  else names.mapM fun name =>
    match members.filter fun m => m.1 == some name.toList with
    | [] => some none
    | [m] => some (some m.2)
    | _ => none

def fieldsOfItems (names : List String) (items : List Value) : Option (List (Option Value)) :=
  if names.length < items.length then none
  else some ((List.range names.length).map fun n => items[n]?)

def fieldsOf (names : List String) : Value → Option (List (Option Value))
  | .object members => fieldsOfMembers names members
  | .array items => fieldsOfItems names items
  | _ => none

def jsonBool : Option Value → Option Bool
  | none => some true
  | some (.boolean b) => some b
  | some _ => none

def jsonLimit : Option Value → Option (Option Nat)
  | none => some none
  | some .null => some none
  | some (.natural n) => some (some n)
  | some _ => none

def jsonText : Value → Option String
  | .string (some s) => some (String.ofList s)
  | _ => none

def jsonOptionalText : Option Value → Option (Option String)
  | none => some none
  | some .null => some none
  | some v => (jsonText v).map some

def jsonMode : Option Value → Option Mode
  | none => some .readOnly
  | some (.string (some s)) => Mode.ofText? (String.ofList s)
  | some (.object [(some key, .null)]) => Mode.ofText? (String.ofList key)
  | some _ => none

def jsonBranch (v : Value) : Option BranchSpec :=
  match fieldsOf ["path", "mode"] v with
  | some [some path, mode] =>
    match jsonText path, jsonMode mode with
    | some path, some mode => some ⟨path, mode⟩
    | _, _ => none
  | _ => none

def jsonBranches : Option Value → Option (List BranchSpec)
  | none => some []
  | some (.array items) => items.mapM jsonBranch
  | some _ => none

def ofJsonValue (v : Value) : Option Config :=
  match fieldsOf ["cow_enabled", "max_path_len", "meta_dir", "hide_tag", "branches"] v with
  | some [cow, limit, dir, tag, branches] =>
    match jsonBool cow, jsonLimit limit, jsonOptionalText dir, jsonOptionalText tag, jsonBranches branches with
    | some cowEnabled, some maxPathLen, some metaDir, some hideTag, some branches =>
      some { cowEnabled, maxPathLen, metaDir, hideTag, branches }
    | _, _, _, _, _ => none
  | _ => none

def ofJson? (text : String) : Option Config := (Json.parse text.toList).bind ofJsonValue

end Whiteout.Config
