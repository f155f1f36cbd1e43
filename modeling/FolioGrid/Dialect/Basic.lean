/-
  FolioGrid.Dialect.Basic
  ────────────────────────────────
  **DIALECTS.**

  A template may bring markup of its own.  A `Dialect` is what the rest of the
  library has to know about it, at each of the places where it may step in;
  at a place where it does not, everything is as without it.
-/
import FolioGrid.Reading.Basic
import FolioGrid.Text.Table

namespace FolioGrid

open FolioGrid.Text

/-- The markup that a template brings along. -/
structure Dialect where
  /-- The target's names of templates, ahead of those in the settings. -/
  templates : Table := Table.empty
  /-- What a line is read as, if not as itself. -/
  readAs : Text → Option Text := fun _ => none
  /-- The reading of a command by name, with the line on which it stands and
  the lines from there on; none if the dialect does not know it. -/
  readCommand : Text → Text → List Text → Option Reading := fun _ _ _ => none
  /-- The segments of a gloss's text at an indent. -/
  expand : Text → Int → Logged (List Segment) := fun t _ => pure [{ text := t }]
  /-- What becomes of the blocks of a whole body. -/
  finish : List Block → List Block := id

/-- The dialect that adds nothing. -/
def Dialect.plain : Dialect := {}

end FolioGrid
