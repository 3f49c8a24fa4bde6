import Whiteout.Toml.Table

/-!
# Quoted strings

The four forms of a TOML string. In the basic forms a backslash begins an escape, in the literal
forms nothing is special. The forms of three quotes may hold line breaks and up to two quotes in a
row, and up to two more may stand right before the closing ones.

A string is written in the first form that shows it without escapes on one line, and otherwise in
the plainest form that can hold it. `Form.choose` is that order and `written` the text.
-/

namespace Whiteout.Toml

def hexValue? (c : Char) : Option Nat :=
  if '0' ≤ c ∧ c ≤ '9' then some (c.toNat - 48)
  else if 'a' ≤ c ∧ c ≤ 'f' then some (c.toNat - 87)
  else if 'A' ≤ c ∧ c ≤ 'F' then some (c.toNat - 55)
  else none

def scalar? (n : Nat) : Option Char := if n.isValidChar then some (Char.ofNat n) else none

def shortEscape? : Char → Option Char
  | 'b' => some '\x08'
  | 't' => some '\t'
  | 'n' => some '\n'
  | 'f' => some '\x0c'
  | 'r' => some '\r'
  | '"' => some '"'
  | '\\' => some '\\'
  | _ => none

/-- Where a basic string is being read: in its text, after a line's last backslash, inside an escape. -/
inductive Inside
  | text (trimming : Bool)
  | escape
  | lineEnd
  | digits (missing value : Nat)

/-- The quotes that belong to the text where three or more quotes in a row close it. -/
def closing (quote : Char) : Chars → Chars × Chars
  | a :: b :: rest =>
    if a = quote ∧ b = quote then ([quote, quote], rest)
    else if a = quote then ([quote], b :: rest)
    else ([], a :: b :: rest)
  | [a] => if a = quote then ([quote], []) else ([], [a])
  | [] => ([], [])

def prepend (c : Char) (r : Option (Chars × Chars)) : Option (Chars × Chars) :=
  r.map fun (text, rest) => (c :: text, rest)

def closes (quote : Char) (rest : Chars) : Bool := rest.take 2 == [quote, quote]

def basicBody (lines : Bool) : Inside → Reader Chars
  | _, [] => none
  | .text trimming, c :: rest =>
    if trimming && (isSpace c || c == '\n') then basicBody lines (.text true) rest
    else if lines && c == '\r' && rest.head? == some '\n' then basicBody lines (.text trimming) rest
    else if c = '"' then
      if !lines then some ([], rest)
      else if closes '"' rest then some (closing '"' (rest.drop 2))
      else prepend c (basicBody lines (.text false) rest)
    else if c = '\\' then basicBody lines .escape rest
    else if isControl c && !(lines && c == '\n') then none
    else prepend c (basicBody lines (.text false) rest)
  | .escape, c :: rest =>
    match shortEscape? c with
    | some e => prepend e (basicBody lines (.text false) rest)
    | none =>
      if c = 'u' then basicBody lines (.digits 4 0) rest
      else if c = 'U' then basicBody lines (.digits 8 0) rest
      else if lines && isSpace c then basicBody lines .lineEnd rest
      else if lines && c == '\n' then basicBody lines (.text true) rest
      else if lines && c == '\r' && rest.head? == some '\n' then basicBody lines .lineEnd rest
      else none
  | .lineEnd, c :: rest =>
    if isSpace c then basicBody lines .lineEnd rest
    else if c = '\n' then basicBody lines (.text true) rest
    else if c == '\r' && rest.head? == some '\n' then basicBody lines .lineEnd rest
    else none
  | .digits missing value, c :: rest =>
    match hexValue? c with
    | none => none
    | some d =>
      if missing ≤ 1 then
        match scalar? (value * 16 + d) with
        | none => none
        | some e => prepend e (basicBody lines (.text false) rest)
      else basicBody lines (.digits (missing - 1) (value * 16 + d)) rest

def literalBody (lines : Bool) : Reader Chars
  | [] => none
  | c :: rest =>
    if lines && c == '\r' && rest.head? == some '\n' then literalBody lines rest
    else if c = '\'' then
      if !lines then some ([], rest)
      else if closes '\'' rest then some (closing '\'' (rest.drop 2))
      else prepend c (literalBody lines rest)
    else if isControl c && !(lines && c == '\n') then none
    else prepend c (literalBody lines rest)

/-- A line break right after three opening quotes does not count. -/
def skipFirstBreak : Chars → Chars
  | '\n' :: rest => rest
  | '\r' :: '\n' :: rest => rest
  | s => s

def basicString (s : Chars) : Option (Chars × Chars) :=
  match s with
  | '"' :: rest => basicBody false (.text false) rest
  | _ => none

def literalString (s : Chars) : Option (Chars × Chars) :=
  match s with
  | '\'' :: rest => literalBody false rest
  | _ => none

def quotedString (s : Chars) : Option (Chars × Chars) :=
  match s with
  | '"' :: rest =>
    if closes '"' rest then basicBody true (.text false) (skipFirstBreak (rest.drop 2))
    else basicBody false (.text false) rest
  | '\'' :: rest =>
    if closes '\'' rest then literalBody true (skipFirstBreak (rest.drop 2))
    else literalBody false rest
  | _ => none

inductive Form
  | basic
  | literal
  | basicLines
  | literalLines
  deriving DecidableEq, Repr

def isHard (c : Char) : Bool := isControl c && c != '\n'

/-- Whether `quote` occurs more than `run` times in a row, where `seen` of them stand before the text. -/
def hasRun (quote : Char) (run : Nat) : Nat → Chars → Bool
  | _, [] => false
  | seen, c :: rest =>
    if c = quote then run ≤ seen || hasRun quote run (seen + 1) rest else hasRun quote run 0 rest

def Form.choose (s : Chars) : Form :=
  if s.any isHard then if '\n' ∈ s then .basicLines else .basic
  else if '\\' ∉ s ∧ '"' ∉ s ∧ '\n' ∉ s then .basic
  else if '\'' ∉ s ∧ '\n' ∉ s then .literal
  else if '\\' ∉ s ∧ hasRun '"' 2 0 s = false then .basicLines
  else if hasRun '\'' 2 0 s = false then .literalLines
  else if '\n' ∈ s then .basicLines
  else .basic

def upperDigit (n : Nat) : Char := Char.ofNat (if n < 10 then 48 + n else 55 + n)

def escaped (lines : Bool) (c : Char) : Chars :=
  if c = '\x08' then ['\\', 'b']
  else if c = '\t' then ['\\', 't']
  else if c = '\n' then if lines then [c] else ['\\', 'n']
  else if c = '\x0c' then ['\\', 'f']
  else if c = '\r' then ['\\', 'r']
  else if c = '\\' then ['\\', '\\']
  else if isControl c then ['\\', 'u', '0', '0', upperDigit (c.toNat / 16), upperDigit (c.toNat % 16)]
  else [c]

/-- The text between the quotes: of double quotes in a row, each after the first `run` is escaped,
and the count starts anew behind it. -/
def basicText (lines : Bool) (run : Nat) : Nat → Chars → Chars
  | _, [] => []
  | seen, c :: rest =>
    if c = '"' then
      if run ≤ seen then '\\' :: '"' :: basicText lines run 0 rest else '"' :: basicText lines run (seen + 1) rest
    else escaped lines c ++ basicText lines run 0 rest

def firstBreak (s : Chars) : Chars := if '\n' ∈ s then ['\n'] else []

def Form.text (s : Chars) : Form → Chars
  | .basic => '"' :: basicText false 0 0 s ++ ['"']
  | .literal => '\'' :: s ++ ['\'']
  | .basicLines => ['"', '"', '"'] ++ firstBreak s ++ basicText true 2 0 s ++ ['"', '"', '"']
  | .literalLines => ['\'', '\'', '\''] ++ firstBreak s ++ s ++ ['\'', '\'', '\'']

def written (s : Chars) : Chars := (Form.choose s).text s

end Whiteout.Toml
