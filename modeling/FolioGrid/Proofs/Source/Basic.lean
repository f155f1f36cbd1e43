/-
  FolioGrid.Proofs.Source.Basic
  ────────────────────────────────
  **BLOCKS AS SOURCE MARKUP.**

  The inverse of reading: a block written as lines of a body
  (`Block.source`).  What reading can give back is said by `Block.Canonical`,
  one case for each form in which a block can be written:

      `\chapter{…}`   `\newpage`   `\印章[…]{…}`   a line of words
      `\条目[n]{…}`   a paragraph with both of its indents
      `\注{…}` and `\按{…}`, of one piece or with words that rise
-/
import FolioGrid.Dialect.Catalogue
import FolioGrid.Proofs.Text.Plain
import FolioGrid.Reading.Line

namespace FolioGrid

open FolioGrid.Text FolioGrid.Markup

/-! ## §1. Writing. -/

/-- A seal in the form in which it is kept. -/
def Stamp.canonical (options file : Text) : Text :=
  stampCommand ++ (option options ++ group file)

/-- A segment in a gloss's argument: one that opens a sub-column rises by as many
places as its indent lies below that of the gloss. -/
def Segment.source (s : Segment) : Text :=
  if s.force then Elevation.raiseToken ++ option (decimal (-s.delta)) ++ group s.text else s.text

/-- The argument of a gloss. -/
def Gloss.argument (a : Gloss) : Text :=
  if a.segments = [] then a.text else a.segments.flatMap Segment.source

/-- The command of a gloss. -/
def Gloss.command (a : Gloss) : Text :=
  if a.indent = Catalogue.glossIndent then Markup.command "注" else Markup.command "按"

/-- The options of a paragraph. -/
def Paragraph.options (p : Paragraph) : Text :=
  utf8 "indent=" ++ decimal p.indent ++ utf8 ", first-indent=" ++ decimal p.firstIndent

/-- A block as the lines of a body. -/
def Block.source : Block → List Text
  | .chapter title => [command "chapter" ++ group title]
  | .newPage => [Line.newPageCommand]
  | .stamp markup => [markup]
  | .text t _ => [t]
  | .entry level t => [Entry.entryCommand ++ option (decimal level) ++ group t]
  | .paragraph p => [Paragraph.opening ++ option p.options, p.text, Paragraph.closing]
  | .gloss a => [a.command ++ group a.argument]

/-! ## §2. What can be written. -/

/-- A segment that rises from a gloss's indent, no higher than the highest
place. -/
structure Segment.Raised (base : Int) (s : Segment) : Prop where
  /-- It says only words. -/
  plain : Plain s.text
  /-- It rises by a number of places. -/
  delta : ∃ n : Nat, s.delta = -n ∧ n ≤ base + 1
  /-- It opens a sub-column. -/
  force : s.force = true

/-- A block in a form that source markup can give. -/
inductive Block.Canonical : Block → Prop where
  /-- A heading. -/
  | chapter {title : Text} (h : Plain title) : Canonical (.chapter title)
  /-- A page end. -/
  | newPage : Canonical .newPage
  /-- A seal with its options and its file. -/
  | stamp {options file : Text} (hoptions : Plain options) (hfile : Plain file) :
      Canonical (.stamp (Stamp.canonical options file))
  /-- A line of words, which has no indent. -/
  | text {t : Text} (h : Plain t) : Canonical (.text t 0)
  /-- An entry at a level that can be counted. -/
  | entry {level : Nat} {t : Text} (hlevel : level ≤ maxCount) (h : Plain t) :
      Canonical (.entry level t)
  /-- A paragraph with indents that can be counted. -/
  | paragraph {t : Text} {indent firstIndent : Nat} (h : Plain t) (hindent : indent ≤ maxCount)
      (hfirst : firstIndent ≤ maxCount) : Canonical (.paragraph ⟨t, indent, firstIndent⟩)
  /-- A gloss or a note of one piece. -/
  | gloss {base : Int} {t : Text} (hbase : base = 2 ∨ base = 4) (h : Plain t) :
      Canonical (.gloss ⟨t, base, []⟩)
  /-- A gloss or a note with words that rise behind its first. -/
  | raised {base : Int} {t : Text} {raised : List Segment} (hbase : base = 2 ∨ base = 4)
      (h : Plain t) (hne : raised ≠ []) (hraised : ∀ s ∈ raised, s.Raised base) :
      Canonical (.gloss ⟨t ++ raised.flatMap (·.text), base, ⟨t, 0, false⟩ :: raised⟩)

end FolioGrid
