/-
  FolioGrid.Block
  ────────────────────────────────
  **BLOCKS: WHAT A BOOK SAYS.**

  Reading a body gives a list of blocks: what the text is, before anything is
  known of the grid it will stand on.  A gloss may carry segments; they
  then spell the same words as its text, with the indent and the breaks of
  each part.
-/
import FolioGrid.Text.Basic

namespace FolioGrid

/-! ## §1. Blocks. -/

/-- A part of a gloss. -/
structure Segment where
  /-- The words. -/
  text : Text
  /-- How far the indent lies from that of the gloss. -/
  delta : Int := 0
  /-- Whether it has to start a new sub-column. -/
  force : Bool := false
  deriving DecidableEq, Repr

/-- A paragraph, which takes as many columns as it needs. -/
structure Paragraph where
  /-- The words. -/
  text : Text
  /-- The indent of every column but the first. -/
  indent : Int := 0
  /-- The indent of the first column. -/
  firstIndent : Int := 0
  deriving DecidableEq, Repr

/-- A gloss: annotation between the lines, set in two half-width sub-columns. -/
structure Gloss where
  /-- The words. -/
  text : Text
  /-- The indent. -/
  indent : Int := 0
  /-- The parts, if the text is not of one piece. -/
  segments : List Segment := []
  deriving DecidableEq, Repr

/-- One thing that a book says. -/
inductive Block where
  /-- A chapter's heading. -/
  | chapter (title : Text)
  /-- The end of a page. -/
  | newPage
  /-- A seal, as the command that stamps it. -/
  | stamp (markup : Text)
  /-- A line of text. -/
  | text (text : Text) (indent : Int)
  /-- An entry of a catalogue; the level is also the indent. -/
  | entry (level : Int) (text : Text)
  /-- A paragraph. -/
  | paragraph (p : Paragraph)
  /-- A gloss. -/
  | gloss (a : Gloss)
  deriving DecidableEq, Repr

/-! ## §2. Kinds of blocks. -/

/-- What kind of thing a block is. -/
inductive Kind where
  /-- A chapter's heading. -/
  | chapter
  /-- The end of a page. -/
  | newPage
  /-- A seal. -/
  | stamp
  /-- A line of text. -/
  | text
  /-- An entry of a catalogue. -/
  | entry
  /-- A paragraph. -/
  | paragraph
  /-- A gloss. -/
  | gloss
  deriving DecidableEq, Repr

namespace Kind

/-- The name of a kind in reports. -/
def name : Kind → String
  | chapter => "chapter"
  | newPage => "newpage"
  | stamp => "yinzhang"
  | text => "text"
  | entry => "tiaomu"
  | paragraph => "paragraph"
  | gloss => "jiazhu"

/-- The kinds in the order in which they are numbered. -/
def all : List Kind := [chapter, newPage, stamp, text, entry, paragraph, gloss]

/-- The kinds in the order of their names. -/
def byName : List Kind := [chapter, gloss, newPage, paragraph, text, entry, stamp]

/-- The name of the kind with a number; any other number is unknown. -/
def nameAt : Int → String
  | .ofNat n => (all[n]?.map name).getD "unknown"
  | .negSucc _ => "unknown"

end Kind

/-- The kind of a block. -/
def Block.kind : Block → Kind
  | .chapter _ => .chapter
  | .newPage => .newPage
  | .stamp _ => .stamp
  | .text _ _ => .text
  | .entry _ _ => .entry
  | .paragraph _ => .paragraph
  | .gloss _ => .gloss

/-- How many blocks there are of each kind that occurs, by the kinds' names. -/
def countKinds (blocks : List Block) : List (Kind × Nat) :=
  (Kind.byName.map fun k => (k, blocks.countP fun b => b.kind = k)).filter fun p => p.2 ≠ 0

end FolioGrid
