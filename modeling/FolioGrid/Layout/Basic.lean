/-
  FolioGrid.Layout.Basic
  ────────────────────────────────
  **FROM BLOCKS TO COLUMNS.**

  Each block has its columns, in order, except that glosses which follow
  each other are laid out together.  The first block without room for its
  words is the one that is reported.
-/
import FolioGrid.Layout.Gloss
import FolioGrid.Layout.Paragraph

namespace FolioGrid

open FolioGrid.Text

/-- What is laid out at once. -/
inductive Stretch where
  /-- A block that is no gloss. -/
  | block (b : Block)
  /-- Glosses that follow each other. -/
  | run (glosses : List Gloss)
  deriving DecidableEq, Repr

/-- Put a block in front of what is laid out after it. -/
def Stretch.push : Block → List Stretch → List Stretch
  | .gloss a, .run as :: rest => .run (a :: as) :: rest
  | .gloss a, rest => .run [a] :: rest
  | b, rest => .block b :: rest

/-- Blocks with their glosses gathered in runs, each as long as can be. -/
def stretches (blocks : List Block) : List Stretch := blocks.foldr Stretch.push []

/-- The column of a line of text; none if it is empty. -/
def lineColumns (s : Settings) (t : Text) (indent : Int) : Except Failure (List Column) :=
  if t = [] then pure []
  else do
    let _ ← s.capacity indent
    pure [.single t indent]

/-- The columns of a block by itself. -/
def Block.columns (s : Settings) : Block → Except Failure (List Column)
  | .chapter title => pure [.chapter title]
  | .newPage => pure [.newPage]
  | .stamp markup => pure [.stamp markup]
  | .text t indent => lineColumns s t indent
  | .entry level t => lineColumns s t level
  | .paragraph p => p.columns s
  | .gloss a => runColumns s [a]

/-- The columns of what is laid out at once. -/
def Stretch.columns (s : Settings) : Stretch → Except Failure (List Column)
  | .block b => b.columns s
  | .run glosses => runColumns s glosses

/-- The columns of some blocks. -/
def layout (s : Settings) (blocks : List Block) : Except Failure (List Column) := do
  let columns ← (stretches blocks).mapM (Stretch.columns s)
  pure columns.flatten

end FolioGrid
