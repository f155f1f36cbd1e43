/-
  FolioGrid.CommandLine.Request
  ────────────────────────────────
  **WHAT THE PROGRAM IS ASKED TO DO.**

  The flags are followed one after another.  What comes of it is a `Request`
  for a conversion, or a reason to stop before any file is touched: help was
  asked for, the arguments are no use, or a value is refused.
-/
import FolioGrid.CommandLine.Arguments
import FolioGrid.Conversion
import FolioGrid.Dialect.Named

namespace FolioGrid.CommandLine

open FolioGrid.Text

/-! ## §1. The grid width. -/

/-- The greatest grid width. -/
def maxWidth : Nat := 1000

/-- A text without a plus sign in front. -/
def dropPlus : Text → Text
  | [] => []
  | b :: rest => if b = ascii '+' then rest else b :: rest

/-- The grid width that a text writes: a numeral from 1 to `maxWidth`, with
white and a plus sign allowed in front. -/
def width? (t : Text) : Option Nat :=
  let digits := dropPlus (t.dropWhile isSpace)
  if isNumeral digits ∧ 1 ≤ numeralValue digits ∧ numeralValue digits ≤ maxWidth
  then some (numeralValue digits)
  else none

/-! ## §2. Following the flags. -/

/-- Why the program stops before it converts. -/
inductive Stop where
  /-- Help was asked for. -/
  | help
  /-- An argument is no use. -/
  | misuse (m : Misuse)
  /-- Input or output are missing. -/
  | incomplete
  /-- A value is refused. -/
  | refused (failure : Failure)
  deriving DecidableEq, Repr

/-- The values that flags gave. -/
structure Values where
  /-- The file to read; empty if none was named. -/
  input : Text := []
  /-- The file to write; empty if none was named. -/
  output : Text := []
  /-- The dialect's name; empty if none was named. -/
  dialect : Text := []
  /-- The grid width, if one was given. -/
  width : Option Nat := none
  deriving DecidableEq, Repr

/-- Follow a flag.  The last one of a kind counts. -/
def Values.follow (values : Values) (flag : Flag) (value : Text) : Except Stop Values :=
  match flag with
  | .input => .ok { values with input := value }
  | .output => .ok { values with output := value }
  | .dialect => .ok { values with dialect := value }
  | .width =>
    match width? value with
    | some n => .ok { values with width := some n }
    | none => .error (.refused (.invalidWidth value))
  | .help => .error .help

/-- Follow flags in order, up to the first that stops the program. -/
def Values.followAll (values : Values) : List Occurrence → Except Stop Values
  | [] => .ok values
  | .error m :: _ => .error (.misuse m)
  | .ok (flag, value) :: rest => do
    let values ← values.follow flag value
    values.followAll rest

/-! ## §3. Requests. -/

/-- A conversion to be done. -/
structure Request where
  /-- The file to read. -/
  input : Text
  /-- The file to write. -/
  output : Text
  /-- The name under which the dialect was asked for. -/
  dialectName : Text
  /-- The dialect of the source. -/
  dialect : Dialect
  /-- The settings of the conversion. -/
  settings : Settings

/-- The settings for a grid width; the standard ones if none was given. -/
def settingsFor (width : Option Nat) : Settings :=
  match width with
  | some n => { Settings.standard with width := n }
  | none => Settings.standard

/-- The request that some values make. -/
def Values.request (values : Values) : Except Stop Request :=
  if values.input = [] ∨ values.output = [] then .error .incomplete
  else
    match Dialect.named values.dialect with
    | .error failure => .error (.refused failure)
    | .ok dialect =>
      .ok
        { input := values.input
          output := values.output
          dialectName := values.dialect
          dialect := dialect
          settings := settingsFor values.width }

/-- The request that some arguments make.  An argument ends at its first NUL. -/
def request (arguments : List Text) : Except Stop Request := do
  let values ← Values.followAll {} (occurrences (arguments.map printable))
  values.request

/-! ## §4. Doing a request. -/

/-- Report the dialect, if one was named. -/
def Request.announce (r : Request) : List Notice :=
  if r.dialectName = [] then [] else [.dialectChosen r.dialectName]

/-- Convert what the input holds, if it can be read. -/
def Request.convert (r : Request) (content : Option Text) : Logged (Except Failure Conversion) :=
  match content with
  | none => ⟨.error (.unreadable r.input), r.announce⟩
  | some content =>
    let result := FolioGrid.convert r.settings r.dialect content
    { result with
      notices := r.announce ++ .inputRead r.input content.length :: result.notices }

/-- How many half-folios some columns fill. -/
def halfFolios (s : Settings) (columns : Nat) : Nat :=
  (columns + s.columnsPerPage - 1) / s.columnsPerPage

/-- Report that a conversion has been written. -/
def Request.written (r : Request) (c : Conversion) : Notice :=
  .outputWritten r.output c.blocks c.columns (halfFolios r.settings c.columns)
    r.settings.columnsPerPage

end FolioGrid.CommandLine
