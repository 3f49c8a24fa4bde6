import Whiteout.Toml.Scalar
import Whiteout.Toml.Table

/-!
# Documents

A document is read line by line: blank lines, headers and settings, each ended by a line break or
the end of the text, with a comment before it. Arrays may go over several lines, inline tables may
not. Values nest, and keys are dotted, at most seventy-nine deep.
-/

namespace Whiteout.Toml

def maxDepth : Nat := 79

def isBare (c : Char) : Bool := c.isAlphanum || c == '_' || c == '-'

def simpleKey (s : Chars) : Option (Key × Chars) :=
  match s with
  | [] => none
  | c :: rest =>
    if c = '"' then basicString (c :: rest)
    else if c = '\'' then literalString (c :: rest)
    else if isBare c then some ((c :: rest).takeWhile isBare, (c :: rest).dropWhile isBare)
    else none

def dottedKey : Nat → Reader (List Key)
  | 0, _ => none
  | parts + 1, s =>
    match simpleKey (skipSpace s) with
    | none => none
    | some (k, rest) =>
      match skipSpace rest with
      | '.' :: more => (dottedKey parts more).map fun (ks, r) => (k :: ks, r)
      | rest => some ([k], rest)

def keyPath (s : Chars) : Option ((List Key × Key) × Chars) :=
  match dottedKey maxDepth s with
  | none => none
  | some (keys, rest) => keys.getLast?.map fun last => ((keys.dropLast, last), rest)

def skipLines (inComment : Bool) : Chars → Chars
  | [] => []
  | c :: rest =>
    if c = '\n' then skipLines false rest
    else if c == '\r' && rest.head? == some '\n' then skipLines false rest
    else if inComment then if isControl c then c :: rest else skipLines true rest
    else if c = '#' then skipLines true rest
    else if isSpace c then skipLines false rest
    else c :: rest

def arrayItems (item : Reader Value) : Nat → Reader (List Value)
  | 0, _ => none
  | fuel + 1, s =>
    match skipLines false s with
    | ']' :: rest => some ([], rest)
    | s =>
      match item s with
      | none => none
      | some (v, rest) =>
        match skipLines false rest with
        | ',' :: more => (arrayItems item fuel more).map fun (vs, r) => (v :: vs, r)
        | ']' :: rest => some ([v], rest)
        | _ => none

def pair (item : Reader Value) (s : Chars) : Option (Pair × Chars) :=
  match keyPath s with
  | some ((path, key), '=' :: rest) => (item (skipSpace rest)).map fun (v, r) => (⟨path, key, v⟩, r)
  | _ => none

def inlinePairs (item : Reader Value) : Nat → Reader (List Pair)
  | 0, _ => none
  | fuel + 1, s =>
    match pair item s with
    | none => none
    | some (p, rest) =>
      match skipSpace rest with
      | ',' :: more => (inlinePairs item fuel more).map fun (ps, r) => (p :: ps, r)
      | '}' :: rest => some ([p], rest)
      | _ => none

def inlineTable (item : Reader Value) (s : Chars) : Option (Value × Chars) :=
  let found := match skipSpace s with
    | '}' :: rest => some ([], rest)
    | s => inlinePairs item (s.length + 1) s
  match found with
  | none => none
  | some (pairs, rest) => (setPairs pairs []).map fun entries => (.table .closed entries, rest)

/-- A value with at most `depth` containers inside each other. -/
def value : Nat → Reader Value
  | 0, s => scalar s
  | depth + 1, s =>
    match s with
    | '[' :: rest => (arrayItems (value depth) (rest.length + 1) rest).map fun (vs, r) => (.array vs, r)
    | '{' :: rest => inlineTable (value depth) rest
    | s => scalar s

def lineEnd? (s : Chars) : Option Chars :=
  let s := match skipSpace s with
    | '#' :: rest => rest.dropWhile fun c => !isControl c
    | s => s
  match s with
  | [] => some []
  | '\n' :: rest => some rest
  | '\r' :: '\n' :: rest => some rest
  | _ => none

inductive Line
  | blank
  | header (h : Header)
  | setting (p : Pair)

def header (s : Chars) : Option (Header × Chars) :=
  match s with
  | '[' :: '[' :: rest =>
    match keyPath rest with
    | some ((path, key), ']' :: ']' :: rest) => some (.element path key, rest)
    | _ => none
  | '[' :: rest =>
    match keyPath rest with
    | some ((path, key), ']' :: rest) => some (.table path key, rest)
    | _ => none
  | _ => none

def lineContent (s : Chars) : Option (Line × Chars) :=
  match s with
  | [] => some (.blank, s)
  | c :: _ =>
    if c = '[' then (header s).map fun (h, rest) => (.header h, rest)
    else if c = '#' ∨ c = '\n' ∨ c = '\r' then some (.blank, s)
    else (pair (value maxDepth) s).map fun (p, rest) => (.setting p, rest)

def lines : Nat → Chars → Option (List Line)
  | 0, _ => none
  | fuel + 1, s =>
    match skipSpace s with
    | [] => some []
    | s =>
      match lineContent s with
      | none => none
      | some (line, rest) =>
        match lineEnd? rest with
        | none => none
        | some rest => (lines fuel rest).map (line :: ·)

def sections : List Line → List Pair × List Section
  | [] => ([], [])
  | .blank :: rest => sections rest
  | .setting p :: rest => (p :: (sections rest).1, (sections rest).2)
  | .header h :: rest => ([], ⟨h, (sections rest).1⟩ :: (sections rest).2)

def skipMark : Chars → Chars
  | [] => []
  | c :: rest => if c = '\ufeff' then rest else c :: rest

def parse (text : Chars) : Option Entries :=
  let text := skipMark text
  match lines (text.length + 1) text with
  | none => none
  | some lines =>
    let (pairs, rest) := sections lines
    (setPairs pairs []).bind (addSections rest)

end Whiteout.Toml
