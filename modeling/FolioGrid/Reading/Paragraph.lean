/-
  FolioGrid.Reading.Paragraph
  ────────────────────────────────
  **PARAGRAPHS.**

  A paragraph is an environment.  Its lines are joined without anything
  between them, for a line break in the source is no space on the page;
  comments are cut.  What follows the mark of its end on the same line is not
  read.
-/
import FolioGrid.Markup.Argument
import FolioGrid.Markup.Command
import FolioGrid.Markup.Options
import FolioGrid.Reading.Basic
import FolioGrid.Text.Number
import FolioGrid.Text.Punctuation

namespace FolioGrid.Paragraph

open FolioGrid.Text FolioGrid.Markup

/-- The mark at which a paragraph begins. -/
def opening : Text := beginMark "段落"

/-- The mark at which a paragraph ends. -/
def closing : Text := endMark "段落"

/-! ## §1. Options. -/

/-- The indent that stands under a key of the options, or else a given one. -/
def indentOption (options : Table) (key : Text) (otherwise : Int) : Logged Int :=
  match options.get? key with
  | none => pure otherwise
  | some value =>
    match count? value with
    | some n => pure n
    | none => ⟨otherwise, [.malformedIndent key value]⟩

/-- The indent of a paragraph and that of its first column, which is the same
unless the options say otherwise. -/
def indents (options : Table) : Logged (Int × Int) := do
  let indent ← indentOption options (utf8 "indent") 0
  let firstIndent ← indentOption options (utf8 "first-indent") indent
  pure (indent, firstIndent)

/-! ## §2. Lines. -/

/-- A line up to its comment, where `escaped` says whether a backslash stands
in front of the line. -/
def beforeComment (escaped : Bool) : Text → Text
  | [] => []
  | b :: rest =>
    if b = percent && !escaped then [] else b :: beforeComment (b = backslash) rest

/-- What a line adds to a paragraph. -/
def lineText (line : Text) : Text := trimRight (beforeComment false (trim line))

/-- The lines that an environment encloses. -/
structure Enclosed where
  /-- The lines, of which the last may be a part. -/
  inner : List Text
  /-- How many lines were taken. -/
  taken : Nat
  /-- Whether the mark of the end was there. -/
  closed : Bool

/-- Take lines up to the mark of a paragraph's end. -/
def enclosed : List Text → Enclosed
  | [] => ⟨[], 0, false⟩
  | line :: rest =>
    match cut? closing line with
    | some c => ⟨[c.before], 1, true⟩
    | none => ⟨line :: (enclosed rest).inner, (enclosed rest).taken + 1, (enclosed rest).closed⟩

/-! ## §3. Paragraphs. -/

/-- Read a paragraph from what follows its opening mark and from the lines
below. -/
def read (afterOpening : Text) (below : List Text) : Reading :=
  let argument := optionalArgument? afterOpening
  let layout := indents (optionTable (argument.elim [] (·.content)))
  let body := enclosed (skipOption afterOpening :: below)
  let text := body.inner.flatMap lineText
  { blocks :=
      if clean text = [] then []
      else [.paragraph ⟨clean text, layout.value.1, layout.value.2⟩]
    lines := body.taken
    unbalanced := if body.closed then 0 else 1
    notices := layout.notices ++ if body.closed then [] else [.openParagraph text.length] }

end FolioGrid.Paragraph
