/-
  FolioGrid.Layout.Gloss
  ────────────────────────────────
  **GLOSSES ON THE GRID.**

  Glosses that follow each other flow into one another.  A run of them is
  laid out in three steps:

      stream — the passages, each at its own indent
      pack   — sub-columns, filled glyph by glyph; a new one begins when the
               last is full, where the indent changes and at a forced break
      pair   — dual columns, the earlier half on the right
-/
import FolioGrid.Block
import FolioGrid.Column
import FolioGrid.Layout.Room
import FolioGrid.Text.Glyph

namespace FolioGrid

open FolioGrid.Text

/-! ## §1. The stream. -/

/-- A stretch of gloss at one indent. -/
structure Passage where
  /-- The words. -/
  text : Text
  /-- The indent. -/
  indent : Int := 0
  /-- Whether it has to start a new sub-column. -/
  force : Bool := false
  deriving DecidableEq, Repr

/-- The passages of a gloss: its segments or, without any, its text.
Those without words do not count. -/
def Gloss.passages (a : Gloss) : List Passage :=
  let all :=
    if a.segments = [] then [⟨a.text, a.indent, false⟩]
    else a.segments.map fun s => ⟨s.text, a.indent + s.delta, s.force⟩
  all.filter (·.text ≠ [])

/-- The passages of a run of glosses. -/
def stream (run : List Gloss) : List Passage := run.flatMap Gloss.passages

/-! ## §2. Sub-columns. -/

/-- A glyph on its way into a sub-column. -/
structure Cell where
  /-- The glyph. -/
  glyph : Text
  /-- The indent of its passage. -/
  indent : Int
  /-- Whether a new sub-column has to begin with it. -/
  opens : Bool
  deriving DecidableEq, Repr

/-- The glyphs of a passage; a forced break stands at the first. -/
def Passage.cells (p : Passage) : List Cell :=
  match glyphs p.text with
  | [] => []
  | g :: gs => ⟨g, p.indent, p.force⟩ :: gs.map fun g => ⟨g, p.indent, false⟩

/-- Fill up a sub-column that has room for some more glyphs, and then others. -/
def fill (s : Settings) (column : SubColumn) (room : Nat) :
    List Cell → Except Failure (List SubColumn)
  | [] => pure [column]
  | c :: rest =>
    if room = 0 ∨ c.opens ∨ c.indent ≠ column.indent then do
      let n ← s.capacity c.indent
      let following ← fill s ⟨c.glyph, c.indent⟩ (n - 1) rest
      pure (column :: following)
    else fill s { column with text := column.text ++ c.glyph } (room - 1) rest

/-- The sub-columns of some glyphs. -/
def packCells (s : Settings) : List Cell → Except Failure (List SubColumn)
  | [] => pure []
  | c :: rest => do
    let n ← s.capacity c.indent
    fill s ⟨c.glyph, c.indent⟩ (n - 1) rest

/-- The sub-columns of some passages. -/
def pack (s : Settings) (passages : List Passage) : Except Failure (List SubColumn) :=
  packCells s (passages.flatMap Passage.cells)

/-! ## §3. Dual columns. -/

/-- The column of two halves.  The left one keeps its indent if it differs. -/
def DualColumn.ofHalves (right left : SubColumn) : DualColumn where
  indent := right.indent
  right := right.text
  left := left.text
  leftIndent := if left.indent = right.indent then none else some left.indent

/-- Sub-columns in pairs; an odd last one has nothing on its left. -/
def pair : List SubColumn → List DualColumn
  | [] => []
  | [right] => [{ indent := right.indent, right := right.text }]
  | right :: left :: rest => DualColumn.ofHalves right left :: pair rest

/-- The columns of a run of glosses. -/
def runColumns (s : Settings) (run : List Gloss) : Except Failure (List Column) := do
  let halves ← pack s (stream run)
  pure ((pair halves).map .dual)

end FolioGrid
