/-
  FolioGrid.Reading.Basic
  ────────────────────────────────
  **WHAT WAS READ.**

  A reader looks at the lines of a body and takes some of them.  Its `Reading`
  says what it made of them, how many it took, and what damage it met.
  Readings of consecutive lines add up.
-/
import FolioGrid.Notice

namespace FolioGrid

/-- What a reader made of the lines that it took. -/
structure Reading where
  /-- The blocks, in order. -/
  blocks : List Block := []
  /-- How many lines were taken. -/
  lines : Nat := 0
  /-- How many commands did not close. -/
  unbalanced : Nat := 0
  /-- How many commands were unknown. -/
  unrecognized : Nat := 0
  /-- What there was to report. -/
  notices : List Notice := []
  deriving DecidableEq, Repr

namespace Reading

/-- The reading of lines that say nothing. -/
def empty : Reading := {}

/-- The reading of one line that is a block. -/
def ofBlock (b : Block) : Reading := { blocks := [b], lines := 1 }

/-- The reading of one line of text, which is a block unless it is empty. -/
def ofText (t : Text) : Reading :=
  { blocks := if t = [] then [] else [.text t 0], lines := 1 }

/-- The reading of some lines and of those after them. -/
def append (r s : Reading) : Reading where
  blocks := r.blocks ++ s.blocks
  lines := r.lines + s.lines
  unbalanced := r.unbalanced + s.unbalanced
  unrecognized := r.unrecognized + s.unrecognized
  notices := r.notices ++ s.notices

instance : Append Reading := ⟨append⟩

/-- The reading with a report in front. -/
def after (notices : List Notice) (r : Reading) : Reading :=
  { r with notices := notices ++ r.notices }

end Reading

end FolioGrid
