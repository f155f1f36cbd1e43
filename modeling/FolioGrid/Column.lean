/-
  FolioGrid.Column
  ────────────────────────────────
  **COLUMNS: WHERE A BOOK'S WORDS STAND.**

  The grid is a list of columns, read from right to left.  A column holds one
  line of full-width text or two of half-width gloss; headings, page ends
  and seals stand between them.  A `SubColumn` is one half of a dual column
  before it has been paired with its neighbour.
-/
import FolioGrid.Text.Basic

namespace FolioGrid

/-- A half-width column of gloss. -/
structure SubColumn where
  /-- The words. -/
  text : Text
  /-- The indent. -/
  indent : Int := 0
  deriving DecidableEq, Repr

/-- A column of two half-width columns. -/
structure DualColumn where
  /-- The indent of both halves, unless one has its own. -/
  indent : Int := 0
  /-- The words on the right, which are read first. -/
  right : Text := []
  /-- The words on the left. -/
  left : Text := []
  /-- An indent of the right half only. -/
  rightIndent : Option Int := none
  /-- An indent of the left half only. -/
  leftIndent : Option Int := none
  deriving DecidableEq, Repr

/-- One element of the grid. -/
inductive Column where
  /-- A chapter's heading. -/
  | chapter (title : Text)
  /-- The end of a page. -/
  | newPage
  /-- A seal, as the command that stamps it. -/
  | stamp (markup : Text)
  /-- A column of full-width text. -/
  | single (text : Text) (indent : Int)
  /-- A column of gloss. -/
  | dual (d : DualColumn)
  deriving DecidableEq, Repr

end FolioGrid
