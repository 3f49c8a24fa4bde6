/-!
# TOML values and how tables are built

The data of a document. A table remembers how it came to be, because that decides what may still be
added to it. Floats and dates are checked when they are read and not kept: no setting holds one.

A dotted key goes through tables that only dotted keys or deeper headers have made, and ends in one
that dotted keys have made; a header goes through any table that is not closed, and through the last
element of an array of tables. Nothing is set twice.
-/

namespace Whiteout.Toml

abbrev Chars := List Char

abbrev Key := Chars

inductive Origin
  | header
  | implied
  | dotted
  | closed
  deriving DecidableEq, Repr

/-- A table under `tables` is an element of an array of tables that headers extend. -/
inductive Value
  | string (text : Chars)
  | integer (n : Int)
  | boolean (b : Bool)
  | unkept
  | array (items : List Value)
  | table (origin : Origin) (entries : List (Key × Value))
  | tables (items : List (List (Key × Value)))

abbrev Entries := List (Key × Value)

def find? (key : Key) (entries : Entries) : Option Value :=
  (entries.find? fun e => e.1 == key).map Prod.snd

def replace (key : Key) (v : Value) (entries : Entries) : Entries :=
  entries.map fun e => if e.1 = key then (key, v) else e

abbrev Reader (α : Type) := Chars → Option (α × Chars)

def isSpace (c : Char) : Bool := c == ' ' || c == '\t'

def isControl (c : Char) : Bool := (c.toNat < 0x20 && c != '\t') || c.toNat == 0x7F

def skipSpace (s : Chars) : Chars := s.dropWhile isSpace

def addEntry (key : Key) (v : Value) (entries : Entries) : Option Entries :=
  if (find? key entries).isSome then none else some (entries ++ [(key, v)])

def changeLast (change : Entries → Option Entries) : List Entries → Option (List Entries)
  | [] => none
  | [last] => (change last).map fun e => [e]
  | first :: second :: others => (changeLast change (second :: others)).map (first :: ·)

def setDotted (path : List Key) (key : Key) (v : Value) (entries : Entries) : Option Entries :=
  match path with
  | [] => addEntry key v entries
  | p :: deeper =>
    match find? p entries with
    | none => (setDotted deeper key v []).map fun sub => entries ++ [(p, .table .dotted sub)]
    | some (.table .dotted sub) => (setDotted deeper key v sub).map fun sub => replace p (.table .dotted sub) entries
    | some (.table .implied sub) =>
      if deeper = [] then none
      else (setDotted deeper key v sub).map fun sub => replace p (.table .implied sub) entries
    | some (.tables items) =>
      if deeper = [] then none
      else (changeLast (setDotted deeper key v) items).map fun items => replace p (.tables items) entries
    | some _ => none

def changeUnder (path : List Key) (change : Entries → Option Entries) (entries : Entries) : Option Entries :=
  match path with
  | [] => change entries
  | p :: deeper =>
    match find? p entries with
    | none => (changeUnder deeper change []).map fun sub => entries ++ [(p, .table .implied sub)]
    | some (.table .closed _) => none
    | some (.table origin sub) => (changeUnder deeper change sub).map fun sub => replace p (.table origin sub) entries
    | some (.tables items) =>
      (changeLast (changeUnder deeper change) items).map fun items => replace p (.tables items) entries
    | some _ => none

structure Pair where
  path : List Key
  key : Key
  value : Value

inductive Header
  | table (path : List Key) (key : Key)
  | element (path : List Key) (key : Key)

structure Section where
  header : Header
  pairs : List Pair

def setPairs (pairs : List Pair) (entries : Entries) : Option Entries :=
  match pairs with
  | [] => some entries
  | p :: others => (setDotted p.path p.key p.value entries).bind (setPairs others)

/-- A table that deeper headers have implied may be opened once by its own. -/
def openTable (pairs : List Pair) (key : Key) (entries : Entries) : Option Entries :=
  match find? key entries with
  | none => (setPairs pairs []).map fun sub => entries ++ [(key, .table .header sub)]
  | some (.table .implied sub) => (setPairs pairs sub).map fun sub => replace key (.table .header sub) entries
  | some _ => none

def openElement (pairs : List Pair) (key : Key) (entries : Entries) : Option Entries :=
  match find? key entries with
  | none => (setPairs pairs []).map fun sub => entries ++ [(key, .tables [sub])]
  | some (.tables items) => (setPairs pairs []).map fun sub => replace key (.tables (items ++ [sub])) entries
  | some _ => none

def addSection (s : Section) (entries : Entries) : Option Entries :=
  match s.header with
  | .table path key => changeUnder path (openTable s.pairs key) entries
  | .element path key => changeUnder path (openElement s.pairs key) entries

def addSections (sections : List Section) (entries : Entries) : Option Entries :=
  match sections with
  | [] => some entries
  | s :: others => (addSection s entries).bind (addSections others)

end Whiteout.Toml
