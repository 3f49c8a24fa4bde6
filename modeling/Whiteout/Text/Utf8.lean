/-!
# Bytes and the text they spell

Names and paths are byte lists. `utf8` writes a text as bytes, `decode?` reads bytes that are
well formed, and `display` reads any bytes: each longest beginning of a character that is not
completed becomes one replacement character. Overlong forms, surrogates and values past the last
scalar are not well formed.
-/

namespace Whiteout

abbrev Bytes := List UInt8

namespace Text

def utf8 (s : String) : Bytes := s.toList.flatMap String.utf8EncodeChar

def isContinuation (b : UInt8) : Bool := 0x80 ≤ b && b ≤ 0xBF

/-- The second byte of a longer form is what rules out overlong forms, surrogates and large values. -/
def secondAllowed (lead second : UInt8) : Bool :=
  if lead = 0xE0 then 0xA0 ≤ second && second ≤ 0xBF
  else if lead = 0xED then 0x80 ≤ second && second ≤ 0x9F
  else if lead = 0xF0 then 0x90 ≤ second && second ≤ 0xBF
  else if lead = 0xF4 then 0x80 ≤ second && second ≤ 0x8F
  else isContinuation second

def low6 (b : UInt8) : Nat := b.toNat % 64

def char2 (a b : UInt8) : Char := Char.ofNat (a.toNat % 32 * 64 + low6 b)

def char3 (a b c : UInt8) : Char := Char.ofNat (a.toNat % 16 * 4096 + low6 b * 64 + low6 c)

def char4 (a b c d : UInt8) : Char :=
  Char.ofNat (a.toNat % 8 * 262144 + low6 b * 4096 + low6 c * 64 + low6 d)

/-- The characters spelled, `none` for each sequence that spells none. -/
def characters : Bytes → List (Option Char)
  | [] => []
  | a :: rest =>
    if a < 0x80 then some (Char.ofNat a.toNat) :: characters rest
    else if 0xC2 ≤ a && a ≤ 0xDF then
      match rest with
      | b :: tail => if isContinuation b then some (char2 a b) :: characters tail else none :: characters (b :: tail)
      | [] => [none]
    else if 0xE0 ≤ a && a ≤ 0xEF then
      match rest with
      | b :: c :: tail =>
        if secondAllowed a b then
          if isContinuation c then some (char3 a b c) :: characters tail else none :: characters (c :: tail)
        else none :: characters (b :: c :: tail)
      | [b] => if secondAllowed a b then [none] else none :: characters [b]
      | [] => [none]
    else if 0xF0 ≤ a && a ≤ 0xF4 then
      match rest with
      | b :: c :: d :: tail =>
        if secondAllowed a b then
          if isContinuation c then
            if isContinuation d then some (char4 a b c d) :: characters tail else none :: characters (d :: tail)
          else none :: characters (c :: d :: tail)
        else none :: characters (b :: c :: d :: tail)
      | [b, c] =>
        if secondAllowed a b then
          if isContinuation c then [none] else none :: characters [c]
        else none :: characters [b, c]
      | [b] => if secondAllowed a b then [none] else none :: characters [b]
      | [] => [none]
    else none :: characters rest

def decode? (bytes : Bytes) : Option String := ((characters bytes).mapM id).map String.ofList

def display (bytes : Bytes) : String :=
  String.ofList ((characters bytes).map fun c => c.getD (Char.ofNat 0xFFFD))

theorem utf8_append (s t : String) : utf8 (s ++ t) = utf8 s ++ utf8 t := by
  simp [utf8]

end Text

end Whiteout
