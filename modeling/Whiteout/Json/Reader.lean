/-!
# JSON

A string may hold escapes that spell half a surrogate pair. It is then no text, which matters only
to who reads it, so its text is optional here. Of the numbers, the naturals of 64 bits are kept.

Reading is strict: no comments, no comma before a closing bracket, no zero in front of other digits,
no control character inside a string, nothing but white space around the value. Values nest without
limit.
-/

namespace Whiteout.Json

abbrev Chars := List Char

inductive Value
  | null
  | boolean (b : Bool)
  | natural (n : Nat)
  | unkept
  | string (text : Option Chars)
  | array (items : List Value)
  | object (members : List (Option Chars × Value))

def lowerDigit (n : Nat) : Char := Char.ofNat (if n < 10 then 48 + n else 87 + n)

def escaped (c : Char) : Chars :=
  if c = '"' then ['\\', '"']
  else if c = '\\' then ['\\', '\\']
  else if c = '\x08' then ['\\', 'b']
  else if c = '\x0c' then ['\\', 'f']
  else if c = '\n' then ['\\', 'n']
  else if c = '\r' then ['\\', 'r']
  else if c = '\t' then ['\\', 't']
  else if c.toNat < 0x20 then ['\\', 'u', '0', '0', lowerDigit (c.toNat / 16), lowerDigit (c.toNat % 16)]
  else [c]

def written (s : Chars) : Chars := '"' :: s.flatMap escaped ++ ['"']

abbrev Reader (α : Type) := Chars → Option (α × Chars)

def isSpace (c : Char) : Bool := c == ' ' || c == '\n' || c == '\t' || c == '\r'

def skipSpace (s : Chars) : Chars := s.dropWhile isSpace

def isDigit (c : Char) : Bool := '0' ≤ c && c ≤ '9'

def hexValue? (c : Char) : Option Nat :=
  if '0' ≤ c ∧ c ≤ '9' then some (c.toNat - 48)
  else if 'a' ≤ c ∧ c ≤ 'f' then some (c.toNat - 87)
  else if 'A' ≤ c ∧ c ≤ 'F' then some (c.toNat - 55)
  else none

/-- A piece of a string: a character, or a 16-bit unit given by its number. -/
inductive Piece
  | char (c : Char)
  | unit (n : Nat)

inductive Inside
  | text
  | escape
  | digits (missing value : Nat)

def shortEscape? : Char → Option Char
  | '"' => some '"'
  | '\\' => some '\\'
  | '/' => some '/'
  | 'b' => some '\x08'
  | 'f' => some '\x0c'
  | 'n' => some '\n'
  | 'r' => some '\r'
  | 't' => some '\t'
  | _ => none

def prepend (p : Piece) (r : Option (List Piece × Chars)) : Option (List Piece × Chars) :=
  r.map fun (ps, rest) => (p :: ps, rest)

def stringPieces : Inside → Reader (List Piece)
  | _, [] => none
  | .text, c :: rest =>
    if c = '"' then some ([], rest)
    else if c = '\\' then stringPieces .escape rest
    else if c.toNat < 0x20 then none
    else prepend (.char c) (stringPieces .text rest)
  | .escape, c :: rest =>
    match shortEscape? c with
    | some e => prepend (.char e) (stringPieces .text rest)
    | none => if c = 'u' then stringPieces (.digits 4 0) rest else none
  | .digits missing value, c :: rest =>
    match hexValue? c with
    | none => none
    | some d =>
      if missing ≤ 1 then prepend (.unit (value * 16 + d)) (stringPieces .text rest)
      else stringPieces (.digits (missing - 1) (value * 16 + d)) rest

def isHigh (n : Nat) : Bool := 0xD800 ≤ n && n ≤ 0xDBFF

def isLow (n : Nat) : Bool := 0xDC00 ≤ n && n ≤ 0xDFFF

/-- The text of the pieces, if every high unit is followed by a low one and no other low one occurs. -/
def spell : List Piece → Option Chars
  | [] => some []
  | .char c :: rest => (spell rest).map (c :: ·)
  | .unit n :: rest =>
    if isHigh n then
      match rest with
      | .unit m :: more =>
        if isLow m then (spell more).map (Char.ofNat (0x10000 + (n - 0xD800) * 0x400 + (m - 0xDC00)) :: ·) else none
      | _ => none
    else if isLow n then none
    else (spell rest).map (Char.ofNat n :: ·)

def string (s : Chars) : Option (Option Chars × Chars) :=
  match s with
  | '"' :: rest => (stringPieces .text rest).map fun (ps, r) => (spell ps, r)
  | _ => none

def digits (s : Chars) : Option (Chars × Chars) :=
  match s.takeWhile isDigit with
  | [] => none
  | ds => some (ds, s.dropWhile isDigit)

def whole (s : Chars) : Option (Nat × Chars) :=
  match digits s with
  | none => none
  | some ('0' :: _ :: _, _) => none
  | some (ds, rest) => some (ds.foldl (fun n c => n * 10 + (c.toNat - 48)) 0, rest)

def fraction (s : Chars) : Option (Bool × Chars) :=
  match s with
  | '.' :: rest => (digits rest).map fun (_, r) => (true, r)
  | s => some (false, s)

def exponent (s : Chars) : Option (Bool × Chars) :=
  match s with
  | c :: rest =>
    if c = 'e' ∨ c = 'E' then
      let unsigned := match rest with
        | '+' :: r => r
        | '-' :: r => r
        | r => r
      (digits unsigned).map fun (_, r) => (true, r)
    else some (false, c :: rest)
  | [] => some (false, [])

def maxNatural : Nat := Nat.pow 2 64 - 1

def number (s : Chars) : Option (Value × Chars) := do
  let (negative, unsigned) := match s with
    | '-' :: rest => (true, rest)
    | s => (false, s)
  let (n, s) ← whole unsigned
  let (fractional, s) ← fraction s
  let (scaled, s) ← exponent s
  return (if negative || fractional || scaled || maxNatural < n then .unkept else .natural n, s)

def word (w : Chars) (v : Value) (s : Chars) : Option (Value × Chars) :=
  if w.isPrefixOf s then some (v, s.drop w.length) else none

def arrayItems (item : Reader Value) : Nat → Reader (List Value)
  | 0, _ => none
  | fuel + 1, s =>
    match item s with
    | none => none
    | some (v, rest) =>
      match skipSpace rest with
      | ',' :: more => (arrayItems item fuel more).map fun (vs, r) => (v :: vs, r)
      | ']' :: rest => some ([v], rest)
      | _ => none

def member (item : Reader Value) (s : Chars) : Option ((Option Chars × Value) × Chars) :=
  match string (skipSpace s) with
  | none => none
  | some (key, rest) =>
    match skipSpace rest with
    | ':' :: rest => (item rest).map fun (v, r) => ((key, v), r)
    | _ => none

def objectMembers (item : Reader Value) : Nat → Reader (List (Option Chars × Value))
  | 0, _ => none
  | fuel + 1, s =>
    match member item s with
    | none => none
    | some (m, rest) =>
      match skipSpace rest with
      | ',' :: more => (objectMembers item fuel more).map fun (ms, r) => (m :: ms, r)
      | '}' :: rest => some ([m], rest)
      | _ => none

def array (item : Reader Value) (s : Chars) : Option (Value × Chars) :=
  match skipSpace s with
  | ']' :: rest => some (.array [], rest)
  | s => (arrayItems item (s.length + 1) s).map fun (vs, r) => (.array vs, r)

def object (item : Reader Value) (s : Chars) : Option (Value × Chars) :=
  match skipSpace s with
  | '}' :: rest => some (.object [], rest)
  | s => (objectMembers item (s.length + 1) s).map fun (ms, r) => (.object ms, r)

/-- A value with white space before it; a text of `depth` characters cannot nest deeper. -/
def value : Nat → Reader Value
  | 0, _ => none
  | depth + 1, s =>
    match skipSpace s with
    | [] => none
    | c :: rest =>
      if c = '[' then array (value depth) rest
      else if c = '{' then object (value depth) rest
      else if c = '"' then (string (c :: rest)).map fun (text, r) => (.string text, r)
      else if c = 't' then word ['t', 'r', 'u', 'e'] (.boolean true) (c :: rest)
      else if c = 'f' then word ['f', 'a', 'l', 's', 'e'] (.boolean false) (c :: rest)
      else if c = 'n' then word ['n', 'u', 'l', 'l'] .null (c :: rest)
      else number (c :: rest)

def parse (s : Chars) : Option Value :=
  match value (s.length + 1) s with
  | some (v, rest) => if skipSpace rest = [] then some v else none
  | none => none

end Whiteout.Json
