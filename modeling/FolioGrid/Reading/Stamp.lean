/-
  FolioGrid.Reading.Stamp
  ────────────────────────────────
  **SEALS.**

  `\印章[…]` and a brace argument stamp a seal.  The command may be spread over
  lines; the block keeps it in one line without blanks.
-/
import FolioGrid.Markup.Command
import FolioGrid.Reading.Collect

namespace FolioGrid.Stamp

open FolioGrid.Text FolioGrid.Markup

/-- The command that stamps a seal. -/
def stampCommand : Text := command "印章"

/-- Whether a line stamps a seal: the command with an optional argument. -/
def isStamp (line : Text) : Bool :=
  ((after? stampCommand line).bind optionalArgument?).isSome

/-- An argument that closes and is not empty. -/
def filled (a : Argument) : Option Argument := if a.closed ∧ a.content ≠ [] then some a else none

/-- The command with its two arguments and nothing else, of a text without
blanks that starts with them. -/
def canonical? (flat : Text) : Option Text := do
  let arguments ← after? stampCommand flat
  let options ← (optionalArgument? arguments).bind filled
  let file ← (braceArgument? options.rest).bind filled
  pure (stampCommand ++ option options.content ++ group file.content)

/-- The markup of a collected seal. -/
def markup (c : Collected) : Text :=
  let flat := removeBlanks c.text
  if c.closed then (canonical? flat).getD flat else flat

/-- Read a seal whose command stands in the first of some lines. -/
def read (lines : List Text) : Reading :=
  let collected := collect stampCommand lines
  collected.reading stampCommand [.stamp (markup collected)]

end FolioGrid.Stamp
