/-
  FolioGrid.Reading.Collect
  ────────────────────────────────
  **ARGUMENTS THAT RUN OVER LINES.**

  The brace argument of a command may close lines below the one on which it
  opens.  `collect` takes lines, trimmed, until the argument closes, and no
  line more.  If the lines run out first, what there is of the argument is
  kept.  A `Cursor` is the same reading with a position that can be shown.
-/
import FolioGrid.Markup.Argument
import FolioGrid.Reading.Basic

namespace FolioGrid

open FolioGrid.Text FolioGrid.Markup

/-! ## §1. Collecting. -/

/-- A text in one line. -/
def oneLine (t : Text) : Text := t.filter (· ≠ lineFeed)

/-- The brace argument that follows the first occurrence of a command. -/
def argumentOf? (command t : Text) : Option Argument := do
  let c ← cut? command t
  braceArgument? (c.after.dropWhile (· ≠ openBrace))

/-- A command's argument and the lines from which it was collected. -/
structure Collected where
  /-- The lines, trimmed and joined. -/
  text : Text
  /-- The argument in one line. -/
  content : Text
  /-- How many lines were taken. -/
  lines : Nat
  /-- Whether the argument closed. -/
  closed : Bool
  deriving DecidableEq, Repr

/-- What is kept of an argument that does not close: the braces at its end
have lost their partners and are dropped. -/
def salvage (command text : Text) : Text :=
  match argumentOf? command text with
  | some a => oneLine (a.content.reverse.dropWhile (· = closeBrace)).reverse
  | none => []

/-- Take lines until the argument of a command closes. -/
def collect (command : Text) : List Text → Collected
  | [] => ⟨[], salvage command [], 0, false⟩
  | first :: rest => go (trim first) 1 rest
where
  /-- Take more lines, if those that have been taken do not suffice. -/
  go (text : Text) (taken : Nat) (rest : List Text) : Collected :=
    match (argumentOf? command text).bind Argument.ifClosed with
    | some a => ⟨text, oneLine a.content, taken, true⟩
    | none =>
      match rest with
      | [] => ⟨text, salvage command text, taken, false⟩
      | next :: rest => go (text ++ lineFeed :: trim next) (taken + 1) rest

namespace Collected

/-- How many commands did not close: none or this one. -/
def unbalanced (c : Collected) : Nat := if c.closed then 0 else 1

/-- The report on a command that did not close. -/
def notices (c : Collected) (command : Text) : List Notice :=
  if c.closed then [] else [.unbalanced command c.lines c.content.length]

/-- The reading of the collected lines as blocks. -/
def reading (c : Collected) (command : Text) (blocks : List Block) : Reading where
  blocks := blocks
  lines := c.lines
  unbalanced := c.unbalanced
  notices := c.notices command

end Collected

/-! ## §2. Cursors. -/

/-- A place among the lines of a body. -/
structure Cursor where
  /-- How many lines have been passed. -/
  position : Nat := 0
  /-- The lines from here on. -/
  rest : List Text
  /-- How many commands on the way here did not close. -/
  unbalanced : Nat := 0
  deriving DecidableEq, Repr

namespace Cursor

/-- The cursor on the first of some lines. -/
def ofLines (lines : List Text) : Cursor := { rest := lines }

/-- Whether no line is left. -/
def atEnd (c : Cursor) : Bool := c.rest.isEmpty

/-- The line under the cursor. -/
def current? (c : Cursor) : Option Text := c.rest.head?

/-- Pass some lines, but not the end. -/
def advance (c : Cursor) (count : Nat) : Cursor :=
  { c with position := c.position + min count c.rest.length, rest := c.rest.drop count }

/-- Count a command that did not close. -/
def noteUnbalanced (c : Cursor) : Cursor := { c with unbalanced := c.unbalanced + 1 }

/-- Pass the lines of a reading and count its damage. -/
def follow (c : Cursor) (r : Reading) : Cursor :=
  { c.advance r.lines with unbalanced := c.unbalanced + r.unbalanced }

/-- Collect a command's argument from the lines at the cursor. -/
def collect (c : Cursor) (command : Text) : Collected × Cursor :=
  let collected := FolioGrid.collect command c.rest
  (collected, c.follow (collected.reading command []))

end Cursor

end FolioGrid
