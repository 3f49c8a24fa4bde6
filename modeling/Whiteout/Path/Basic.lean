import Whiteout.Text.Pieces
import Whiteout.Text.Utf8

/-!
# Path text

A path is a byte list cut by `/`. `components` are its non-empty pieces. `directory` is what stands
before the last separator, and `parent?` is the containing directory by components: separators at
the end, doubled separators and `.` inside do not count, while a leading `.` does.

A name in a directory has at most 255 bytes, no separator and no NUL, and is not one of the names
that every directory has. A path that the host admits has at most 4095 bytes and no NUL.
-/

namespace Whiteout.Path

open Text (pieces rejoin)

def separator : UInt8 := 47

def dot : Bytes := [46]

def dotDot : Bytes := [46, 46]

def components (path : Bytes) : List Bytes := (pieces separator path).filter fun p => !p.isEmpty

def isAbsolute (path : Bytes) : Bool := path.head? == some separator

def endsWithSeparator (path : Bytes) : Bool := path.getLast? == some separator

theorem separator_not_mem_component {path name : Bytes} (h : name ∈ components path) : separator ∉ name :=
  Text.not_mem_piece (List.mem_filter.1 h).1

theorem mem_of_mem_component {path name : Bytes} {b : UInt8} (h : name ∈ components path) (hb : b ∈ name) :
    b ∈ path := Text.mem_of_mem_piece (List.mem_filter.1 h).1 hb

theorem components_append_separator (path rest : Bytes) :
    components (path ++ separator :: rest) = components path ++ components rest := by
  simp [components, Text.pieces_append_cons]

def directory (path : Bytes) : Bytes :=
  if separator ∈ path then ((path.reverse.dropWhile fun b => b ≠ separator).drop 1).reverse else dot

/-- What a home directory or a configuration directory is extended by; an absolute `rest` replaces it. -/
def join (base rest : Bytes) : Bytes :=
  if isAbsolute rest then rest
  else if base.isEmpty || endsWithSeparator base then base ++ rest
  else base ++ separator :: rest

def ignorable (piece : Bytes) : Bool := piece.isEmpty || piece == dot

/-- Pieces up to the last that counts; the first one always counts. -/
def significant : List Bytes → List Bytes
  | [] => []
  | first :: others => first :: (others.reverse.dropWhile ignorable).reverse

def parent? (path : Bytes) : Option Bytes :=
  match significant (pieces separator path) with
  | [] => none
  | [only] => if only.isEmpty then none else some []
  | first :: others =>
    match significant (first :: others.dropLast) with
    | [[]] => some [separator]
    | kept => some (rejoin separator kept)

def maxNameLength : Nat := 255

def maxLength : Nat := 4095

def isName (name : Bytes) : Bool :=
  !name.isEmpty && name != dot && name != dotDot && !name.contains separator && !name.contains 0 &&
    name.length ≤ maxNameLength

def isAdmissible (path : Bytes) : Bool := !path.isEmpty && !path.contains 0 && path.length ≤ maxLength

theorem isName_iff {name : Bytes} : isName name = true ↔
    name ≠ [] ∧ name ≠ dot ∧ name ≠ dotDot ∧ separator ∉ name ∧ 0 ∉ name ∧ name.length ≤ maxNameLength := by
  simp [isName, and_assoc]

theorem isAdmissible_iff {path : Bytes} : isAdmissible path = true ↔
    path ≠ [] ∧ 0 ∉ path ∧ path.length ≤ maxLength := by
  simp [isAdmissible, and_assoc]

end Whiteout.Path
