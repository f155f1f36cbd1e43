/-
  FolioGrid.Layout.Paragraph
  ────────────────────────────────
  **PARAGRAPHS ON THE GRID.**

  A paragraph is cut into columns, each of which is full but the last.  The
  first column has an indent of its own.
-/
import FolioGrid.Block
import FolioGrid.Column
import FolioGrid.Layout.Room
import FolioGrid.Text.Glyph

namespace FolioGrid

open FolioGrid.Text

/-- A list cut into pieces of `n` elements, of which the last may have fewer. -/
def chunks {α : Type} (n : Nat) (l : List α) : List (List α) :=
  match n, l with
  | 0, _ => []
  | _, [] => []
  | n + 1, a :: rest => (a :: rest.take n) :: chunks (n + 1) (rest.drop n)
termination_by l.length
decreasing_by simp only [List.length_drop, List.length_cons]; omega

/-- The columns of a paragraph. -/
def Paragraph.columns (p : Paragraph) (s : Settings) : Except Failure (List Column) :=
  match glyphs p.text with
  | [] => pure []
  | g :: gs => do
    let first ← s.capacity p.firstIndent
    let head := Column.single ((g :: gs).take first).flatten p.firstIndent
    match (g :: gs).drop first with
    | [] => pure [head]
    | rest => do
      let n ← s.capacity p.indent
      pure (head :: (chunks n rest).map fun c => Column.single c.flatten p.indent)

end FolioGrid
