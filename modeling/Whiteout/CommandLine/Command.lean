import Whiteout.CommandLine.Options

/-!
# Commands

The six commands and their arguments. The configuration file and the branch list may be given before
the command, after it, or at both places, and then the place after it counts.
-/

namespace Whiteout.CommandLine

inductive Command
  | check (path : String) (branch : Option Nat)
  | resolve (path : String)
  | hide (path : String) (branch : Nat) (dir : Bool)
  | unhide (path : String) (last : Option Nat)
  | list (branch : Option Nat) (json : Bool)
  | hash (input : String)
  deriving DecidableEq, Repr

structure Invocation where
  config : Option String
  branches : Option String
  command : Command
  deriving DecidableEq, Repr

def configOption : Opt := ⟨"config".toList, none, .filledText⟩

def branchesOption : Opt := ⟨"branches".toList, none, .text⟩

def branchOption : Opt := ⟨"branch".toList, some 'b', .natural⟩

def lastOption : Opt := ⟨"max-branch".toList, none, .natural⟩

def dirFlag : Opt := ⟨"dir".toList, none, .nothing⟩

def jsonFlag : Opt := ⟨"json".toList, none, .nothing⟩

def commandNames : List Word := ["check", "resolve", "hide", "unhide", "list", "hash"].map String.toList

def topLevel : Level := ⟨[configOption, branchesOption], commandNames, 0⟩

def optionsOf (name : String) : List Opt :=
  match name with
  | "check" => [branchOption]
  | "hide" => [branchOption, dirFlag]
  | "unhide" => [lastOption]
  | "list" => [branchOption, jsonFlag]
  | _ => []

def levelOf (name : String) : Level :=
  ⟨topLevel.options ++ optionsOf name, [], if name = "list" then 0 else 1⟩

def naturalOf (g : Given) (o : Opt) : Option Nat := (g.value? o.long).bind natural?

def commandOf (name : String) (g : Given) : Option Command :=
  match name, g.positionals.map String.ofList with
  | "check", [path] => some (.check path (naturalOf g branchOption))
  | "resolve", [path] => some (.resolve path)
  | "hide", [path] => (naturalOf g branchOption).map fun rank => .hide path rank (g.has dirFlag.long)
  | "unhide", [path] => some (.unhide path (naturalOf g lastOption))
  | "list", [] => some (.list (naturalOf g branchOption) (g.has jsonFlag.long))
  | "hash", [input] => some (.hash input)
  | _, _ => none

def parseWords (words : List Word) : Option Invocation :=
  match readLevel topLevel .none none words with
  | some (outer, name :: rest) =>
    let name := String.ofList name
    match readLevel (levelOf name) .none none rest with
    | some (inner, _) =>
      let shared (o : Opt) := ((inner.value? o.long).or (outer.value? o.long)).map String.ofList
      (commandOf name inner).map fun command => ⟨shared configOption, shared branchesOption, command⟩
    | none => none
  | _ => none

def parse (args : List String) : Option Invocation := parseWords (args.map String.toList)

end Whiteout.CommandLine
