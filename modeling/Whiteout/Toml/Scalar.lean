import Whiteout.Toml.Quoted

/-!
# Numbers, dates and words

The values that are neither strings nor containers. Integers are those of 64 bits with sign. A float
must not exceed the largest finite one, and a date must be one of the calendar. A reader stops where
its value ends; whatever may not follow is for the caller to refuse.
-/

namespace Whiteout.Toml

def isDigit (c : Char) : Bool := '0' ≤ c && c ≤ '9'

def digitValue (c : Char) : Nat := c.toNat - 48

/-- Digits that may be parted by single underscores, given back without them. -/
def parted (digit : Char → Bool) : Reader Chars
  | [] => none
  | c :: rest =>
    if digit c then
      match rest with
      | '_' :: more => prepend c (parted digit more)
      | d :: more => if digit d then prepend c (parted digit (d :: more)) else some ([c], d :: more)
      | [] => some ([c], [])
    else none

def numeral (base : Nat) (digits : Chars) : Nat :=
  digits.foldl (fun n c => n * base + (hexValue? c).getD 0) 0

def isOctal (c : Char) : Bool := '0' ≤ c && c ≤ '7'

def isBinary (c : Char) : Bool := c == '0' || c == '1'

def isHex (c : Char) : Bool := (hexValue? c).isSome

def sign : Chars → Bool × Chars
  | '-' :: rest => (true, rest)
  | '+' :: rest => (false, rest)
  | s => (false, s)

def decimal (s : Chars) : Option (Chars × Chars) :=
  match s with
  | '0' :: rest => some (['0'], rest)
  | s => parted isDigit s

def maxInteger : Nat := Nat.pow 2 63 - 1

def signed (negative : Bool) (n : Nat) : Option Int :=
  if negative then if n ≤ maxInteger + 1 then some (-(n : Int)) else none
  else if n ≤ maxInteger then some (n : Int) else none

def radix (base : Nat) (digit : Char → Bool) (s : Chars) : Option (Int × Chars) :=
  match parted digit s with
  | none => none
  | some (digits, rest) => (signed false (numeral base digits)).map fun n => (n, rest)

def integer (s : Chars) : Option (Int × Chars) :=
  match s with
  | '0' :: 'x' :: rest => radix 16 isHex rest
  | '0' :: 'o' :: rest => radix 8 isOctal rest
  | '0' :: 'b' :: rest => radix 2 isBinary rest
  | s =>
    let (negative, unsigned) := sign s
    match decimal unsigned with
    | none => none
    | some (digits, rest) => (signed negative (numeral 10 digits)).map fun n => (n, rest)

def floatBound : Nat := Nat.pow 2 1024 - Nat.pow 2 970

/-- Whether `n * 10 ^ exponent` rounds to infinity. -/
def overflows (n : Nat) (exponent : Int) : Bool :=
  let digits := (Nat.toDigits 10 n).length
  if n = 0 then false
  else if 309 < digits + exponent then true
  else if digits + exponent ≤ 308 then false
  else if 0 ≤ exponent then floatBound ≤ n * Nat.pow 10 exponent.toNat
  else floatBound * Nat.pow 10 (-exponent).toNat ≤ n

def exponentPart (s : Chars) : Option (Int × Chars) :=
  match s with
  | c :: rest =>
    if c = 'e' ∨ c = 'E' then
      let (negative, unsigned) := sign rest
      match parted isDigit unsigned with
      | none => none
      | some (digits, rest) =>
        let n : Int := numeral 10 digits
        some (if negative then -n else n, rest)
    else none
  | [] => none

def fractionPart (s : Chars) : Option (Chars × Chars) :=
  match s with
  | '.' :: rest => parted isDigit rest
  | _ => none

def decimalFloat (s : Chars) : Option Chars :=
  let (negative, unsigned) := sign s
  match decimal unsigned with
  | none => none
  | some (whole, rest) =>
    let checked (fraction : Chars) (exponent : Int) (rest : Chars) : Option Chars :=
      if !negative && overflows (numeral 10 (whole ++ fraction)) (exponent - fraction.length) then none
      else some rest
    match exponentPart rest with
    | some (exponent, rest) => checked [] exponent rest
    | none =>
      match fractionPart rest with
      | none => none
      | some (fraction, rest) =>
        match exponentPart rest with
        | some (exponent, rest) => checked fraction exponent rest
        | none => checked fraction 0 rest

def word (w : Chars) (s : Chars) : Option Chars := if w.isPrefixOf s then some (s.drop w.length) else none

def infinite (s : Chars) : Option Chars :=
  let unsigned := (sign s).2
  (word ['i', 'n', 'f'] unsigned).or (word ['n', 'a', 'n'] unsigned)

def float (s : Chars) : Option Chars := (decimalFloat s).or (infinite s)

def fixed : Nat → Chars → Option (Nat × Chars)
  | 0, s => some (0, s)
  | count + 1, c :: rest =>
    if isDigit c then (fixed count rest).map fun (n, r) => (digitValue c * Nat.pow 10 count + n, r) else none
  | _ + 1, [] => none

def fixedIn (count low high : Nat) (s : Chars) : Option (Nat × Chars) :=
  (fixed count s).filter fun (n, _) => low ≤ n && n ≤ high

def mark (c : Char) (s : Chars) : Option Chars :=
  match s with
  | d :: rest => if c = d then some rest else none
  | [] => none

def daysIn (year month : Nat) : Nat :=
  if month = 2 then if year % 4 = 0 ∧ (year % 100 ≠ 0 ∨ year % 400 = 0) then 29 else 28
  else if month = 4 ∨ month = 6 ∨ month = 9 ∨ month = 11 then 30 else 31

def date (s : Chars) : Option Chars := do
  let (year, s) ← fixed 4 s
  let s ← mark '-' s
  let (month, s) ← fixedIn 2 1 12 s
  let s ← mark '-' s
  let (_, s) ← fixedIn 2 1 (daysIn year month) s
  return s

def secondFraction (s : Chars) : Chars :=
  match s with
  | '.' :: c :: rest => if isDigit c then rest.dropWhile isDigit else s
  | s => s

/-- A minute may have a leap second. -/
def time (s : Chars) : Option Chars := do
  let (_, s) ← fixedIn 2 0 23 s
  let s ← mark ':' s
  let (_, s) ← fixedIn 2 0 59 s
  let s ← mark ':' s
  let (_, s) ← fixedIn 2 0 60 s
  return secondFraction s

def zone (s : Chars) : Option Chars :=
  match s with
  | c :: rest =>
    if c = 'Z' ∨ c = 'z' then some rest
    else if c = '+' ∨ c = '-' then do
      let (_, s) ← fixedIn 2 0 23 rest
      let s ← mark ':' s
      let (_, s) ← fixedIn 2 0 59 s
      return s
    else none
  | [] => none

def timeOfDate (s : Chars) : Option Chars :=
  match s with
  | c :: rest =>
    if c = 'T' ∨ c = 't' ∨ c = ' ' then (time rest).map fun s => (zone s).getD s else none
  | [] => none

def dateTime (s : Chars) : Option Chars :=
  match date s with
  | some rest => some ((timeOfDate rest).getD rest)
  | none => time s

def number (s : Chars) : Option (Value × Chars) :=
  match (dateTime s).or (float s) with
  | some rest => some (.unkept, rest)
  | none => (integer s).map fun (n, rest) => (.integer n, rest)

def boolean (s : Chars) : Option (Value × Chars) :=
  match word ['t', 'r', 'u', 'e'] s with
  | some rest => some (.boolean true, rest)
  | none => (word ['f', 'a', 'l', 's', 'e'] s).map fun rest => (.boolean false, rest)

def scalar (s : Chars) : Option (Value × Chars) :=
  match quotedString s with
  | some (text, rest) => some (.string text, rest)
  | none => (boolean s).or (number s)

end Whiteout.Toml
