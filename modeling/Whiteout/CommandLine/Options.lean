/-!
# Options and positional arguments

How one level of a command line is read. An option is `--name value`, `--name=value`, `-n value`,
`-nvalue` or `-n=value`; a flag takes no value. Where a value is awaited, any word that is no option
is taken for it, also the name of a command. `--` makes all that follows positional. Nothing may be
given twice.
-/

namespace Whiteout.CommandLine

abbrev Word := List Char

inductive Takes
  | nothing
  | text
  | filledText
  | natural
  deriving DecidableEq, Repr

structure Opt where
  long : Word
  short : Option Char
  takes : Takes
  deriving DecidableEq, Repr

/-- One level: its options, the commands that end it, and how many positional arguments it has. -/
structure Level where
  options : List Opt
  commands : List Word
  positionals : Nat

structure Given where
  options : List (Word × Word)
  positionals : List Word
  deriving DecidableEq, Repr

def Given.none : Given := ⟨[], []⟩

def Given.value? (g : Given) (long : Word) : Option Word := (g.options.find? fun o => o.1 == long).map Prod.snd

def Given.has (g : Given) (long : Word) : Bool := (g.value? long).isSome

def isDigit (c : Char) : Bool := '0' ≤ c && c ≤ '9'

def natural? (w : Word) : Option Nat :=
  let digits := match w with
    | '+' :: rest => rest
    | w => w
  if digits.isEmpty || !digits.all isDigit then none
  else
    let n := digits.foldl (fun n c => n * 10 + (c.toNat - 48)) 0
    if n < Nat.pow 2 64 then some n else none

def Takes.admits : Takes → Word → Bool
  | .nothing, _ => false
  | .text, _ => true
  | .filledText, w => !w.isEmpty
  | .natural, w => (natural? w).isSome

def give (g : Given) (o : Opt) (value : Word) : Option Given :=
  if g.has o.long then none else some { g with options := g.options ++ [(o.long, value)] }

def giveValue (g : Given) (o : Opt) (value : Word) : Option Given :=
  if o.takes.admits value then give g o value else none

def givePositionals (level : Level) (g : Given) (words : List Word) : Option Given :=
  let positionals := g.positionals ++ words
  if level.positionals < positionals.length then none else some { g with positionals }

/-- What an option word gives, and the option that still awaits its value. -/
def optionWord (g : Given) (o : Opt) (attached : Option Word) : Option (Given × Option Opt) :=
  match o.takes, attached with
  | .nothing, none => (give g o []).map fun g => (g, none)
  | .nothing, some _ => none
  | _, some value => (giveValue g o value).map fun g => (g, none)
  | _, none => some (g, some o)

def longWord (level : Level) (g : Given) (body : Word) : Option (Given × Option Opt) :=
  let name := body.takeWhile (· ≠ '=')
  let attached := match body.dropWhile (· ≠ '=') with
    | _ :: value => some value
    | [] => none
  (level.options.find? fun o => o.long == name).bind fun o => optionWord g o attached

def shortWord (level : Level) (g : Given) (letter : Char) (tail : Word) : Option (Given × Option Opt) :=
  let attached := match tail with
    | [] => none
    | '=' :: value => some value
    | value => some value
  (level.options.find? fun o => o.short == some letter).bind fun o => optionWord g o attached

/-- Reads a level up to the command that ends it; `awaiting` is the option whose value comes next. -/
def readLevel (level : Level) : Given → Option Opt → List Word → Option (Given × List Word)
  | g, none, [] => some (g, [])
  | _, some _, [] => none
  | g, awaiting, arg :: rest =>
    if awaiting.isNone && level.commands.contains arg then some (g, arg :: rest)
    else match arg, awaiting with
      | ['-', '-'], none => (givePositionals level g rest).map fun g => (g, [])
      | '-' :: '-' :: body, none =>
        (longWord level g body).bind fun (g, awaiting) => readLevel level g awaiting rest
      | '-' :: letter :: tail, none =>
        (shortWord level g letter tail).bind fun (g, awaiting) => readLevel level g awaiting rest
      | '-' :: _ :: _, some _ => none
      | value, some o => (giveValue g o value).bind fun g => readLevel level g none rest
      | value, none => (givePositionals level g [value]).bind fun g => readLevel level g none rest

end Whiteout.CommandLine
