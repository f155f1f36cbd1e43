/-
  FolioGrid.CommandLine.Arguments
  ────────────────────────────────
  **ARGUMENTS OF THE PROGRAM.**

  Arguments are read one by one, and each is one of these:

      `--`            no flag is looked for behind it
      `--name`        a flag by its name, or by any head of it that fits one
                      flag only; a value follows `=` or is the next argument
      `-abc`          flags by their letters; the value of one is what is left
                      of the argument, or the next one
      anything else   no flag; it is passed over

  What comes out is the list of flags with their values, in order.  It stops
  at the first misuse.
-/
import FolioGrid.Text.Basic

namespace FolioGrid.CommandLine

open FolioGrid.Text

/-! ## §1. Flags. -/

/-- A flag of the program. -/
inductive Flag where
  /-- The file to read. -/
  | input
  /-- The file to write. -/
  | output
  /-- The dialect of the source. -/
  | dialect
  /-- The width of the grid. -/
  | width
  /-- Ask for help. -/
  | help
  deriving DecidableEq, Repr

namespace Flag

/-- All flags, in the order in which messages list them. -/
def all : List Flag := [input, output, dialect, width, help]

/-- The name of a flag. -/
def name : Flag → Text
  | input => utf8 "input"
  | output => utf8 "output"
  | dialect => utf8 "plugin"
  | width => utf8 "chars-per-column"
  | help => utf8 "help"

/-- The letter of a flag. -/
def letter : Flag → UInt8
  | input => ascii 'i'
  | output => ascii 'o'
  | dialect => ascii 'p'
  | width => ascii 'n'
  | help => ascii 'h'

/-- Whether a flag has a value. -/
def hasValue : Flag → Bool
  | help => false
  | _ => true

/-- The flags that a name may mean: the one that has it, or else those of whose
names it is a head. -/
def candidates (t : Text) : List Flag :=
  match all.find? (·.name = t) with
  | some f => [f]
  | none => all.filter fun f => t.isPrefixOf f.name

end Flag

/-! ## §2. Misuse. -/

/-- What is wrong with an argument. -/
inductive Misuse where
  /-- No flag has this name. -/
  | unknownName (argument : Text)
  /-- Several flags may be meant. -/
  | ambiguousName (argument : Text) (candidates : List Flag)
  /-- A flag by name lacks its value. -/
  | missingValue (flag : Flag)
  /-- A flag that has no value was given one. -/
  | needlessValue (flag : Flag)
  /-- No flag has this letter. -/
  | unknownLetter (letter : UInt8)
  /-- A flag by letter lacks its value. -/
  | missingValueOf (letter : UInt8)
  deriving DecidableEq, Repr

/-- What stands in front of a flag's name. -/
def dashes : Text := utf8 "--"

/-- A flag's name as it is written, in quotes. -/
def quotedName (t : Text) : Text := utf8 "'" ++ dashes ++ t ++ utf8 "'"

/-- A letter in quotes. -/
def quotedLetter (b : UInt8) : Text := utf8 "'" ++ [b] ++ utf8 "'"

/-- A misuse in words. -/
def Misuse.message : Misuse → Text
  | unknownName t => utf8 "unrecognized option " ++ quotedName t
  | ambiguousName t fs =>
    utf8 "option " ++ quotedName t ++ utf8 " is ambiguous; possibilities:"
      ++ fs.flatMap fun f => utf8 " " ++ quotedName f.name
  | missingValue f => utf8 "option " ++ quotedName f.name ++ utf8 " requires an argument"
  | needlessValue f =>
    utf8 "option " ++ quotedName f.name ++ utf8 " doesn't allow an argument"
  | unknownLetter b => utf8 "invalid option -- " ++ quotedLetter b
  | missingValueOf b => utf8 "option requires an argument -- " ++ quotedLetter b

/-! ## §3. One argument. -/

/-- How the flags of an argument end. -/
inductive Ending where
  /-- With flags that have no value. -/
  | complete
  /-- With a flag and its value. -/
  | given (flag : Flag) (value : Text)
  /-- With a flag whose value is the next argument; if there is none, that is
  a misuse. -/
  | wanting (flag : Flag) (otherwise : Misuse)
  /-- With a misuse. -/
  | wrong (misuse : Misuse)
  deriving DecidableEq, Repr

/-- The flags of one argument. -/
structure Word where
  /-- The flags that have no value. -/
  plain : List Flag
  /-- What comes after them. -/
  ending : Ending
  deriving DecidableEq, Repr

/-- Read an argument that is a name, behind its dashes. -/
def Word.ofName (t : Text) : Word :=
  let (name, value) := t.span (· ≠ ascii '=')
  match Flag.candidates name with
  | [] => ⟨[], .wrong (.unknownName t)⟩
  | [f] =>
    match f.hasValue, value with
    | true, [] => ⟨[], .wanting f (.missingValue f)⟩
    | true, _ :: v => ⟨[], .given f v⟩
    | false, [] => ⟨[f], .complete⟩
    | false, _ :: _ => ⟨[], .wrong (.needlessValue f)⟩
  | fs => ⟨[], .wrong (.ambiguousName t fs)⟩

/-- Read an argument that is letters, behind its dash. -/
def Word.ofLetters : Text → Word
  | [] => ⟨[], .complete⟩
  | b :: rest =>
    match Flag.all.find? (·.letter = b) with
    | none => ⟨[], .wrong (.unknownLetter b)⟩
    | some f =>
      if f.hasValue then
        ⟨[], if rest = [] then .wanting f (.missingValueOf b) else .given f rest⟩
      else ⟨f :: (Word.ofLetters rest).plain, (Word.ofLetters rest).ending⟩

/-- Read an argument; one that is no flag says nothing. -/
def Word.ofArgument (t : Text) : Word :=
  match after? dashes t with
  | some name => Word.ofName name
  | none =>
    match t with
    | b :: rest => if b = ascii '-' then Word.ofLetters rest else ⟨[], .complete⟩
    | [] => ⟨[], .complete⟩

/-! ## §4. All arguments. -/

/-- A flag with its value, or a misuse. -/
abbrev Occurrence := Except Misuse (Flag × Text)

/-- The flags of some arguments, up to the first misuse. -/
def occurrences : List Text → List Occurrence
  | [] => []
  | argument :: rest =>
    if argument = dashes then []
    else
      let word := Word.ofArgument argument
      word.plain.map (fun f => .ok (f, [])) ++
        match word.ending with
        | .complete => occurrences rest
        | .given f v => .ok (f, v) :: occurrences rest
        | .wanting f misuse =>
          match rest with
          | [] => [.error misuse]
          | v :: rest => .ok (f, v) :: occurrences rest
        | .wrong misuse => [.error misuse]

end FolioGrid.CommandLine
