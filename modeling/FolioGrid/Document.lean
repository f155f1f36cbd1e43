/-
  FolioGrid.Document
  ────────────────────────────────
  **DOCUMENTS.**

  A document has four parts, one behind the other: the preamble, up to and
  with the mark of its begin; front matter that is kept as it is; the body;
  and the footer, from the mark of its end on.  Front matter is what stands
  in front of the body's own environment; without that, all is body.
-/
import FolioGrid.Markup.Command
import FolioGrid.Reading.Body

namespace FolioGrid

open FolioGrid.Text FolioGrid.Markup

/-! ## §1. Parts. -/

/-- A document's text in parts. -/
structure Parts where
  /-- All up to and with the mark at which the document begins. -/
  preamble : Text
  /-- What is kept as it is. -/
  preserved : Text
  /-- What is read. -/
  body : Text
  /-- The mark at which the document ends, and all behind it. -/
  footer : Text
  deriving DecidableEq, Repr

/-- The mark at which a document begins. -/
def documentBegin : Text := beginMark "document"

/-- The mark at which a document ends. -/
def documentEnd : Text := endMark "document"

/-- The marks at which the body's environment begins. -/
def bodyBegins : List Text := [beginMark "正文", beginMark "BodyText"]

/-- The marks at which the body's environment ends. -/
def bodyEnds : List Text := [endMark "正文", endMark "BodyText"]

/-- Front matter and body of what stands between a document's marks. -/
def splitBody (t : Text) : Text × Text :=
  match cutAny? bodyBegins t with
  | some c => (c.before, c.found ++ c.after)
  | none => ([], t)

/-- The parts of a document's text. -/
def Parts.ofText (t : Text) : Except Failure Parts :=
  match cut? documentBegin t, cut? documentEnd t with
  | some b, some e =>
    if e.before.length < b.before.length then .error .documentReversed
    else
      let inner := e.before.drop (b.before ++ b.found).length
      let (preserved, body) := splitBody inner
      .ok ⟨b.before ++ b.found, preserved, body, e.found ++ e.after⟩
  | _, _ => .error .documentNotFound

/-- A text without the first of some marks and the white behind it. -/
def eraseMark (marks : List Text) (t : Text) : Text :=
  match cutAny? marks t with
  | some c => c.before ++ c.after.dropWhile isSpace
  | none => t

/-- The lines of a body inside its environment. -/
def bodyLines (body : Text) : List Text := lines (eraseMark bodyEnds (eraseMark bodyBegins body))

/-! ## §2. Documents. -/

/-- A document that has been read. -/
structure Document where
  /-- All up to and with the mark at which the document begins. -/
  preamble : Text
  /-- What is kept as it is. -/
  preserved : Text
  /-- What the body says. -/
  blocks : List Block
  /-- The mark at which the document ends, and all behind it. -/
  footer : Text
  /-- How many commands did not close. -/
  unbalanced : Nat
  /-- How many commands were unknown. -/
  unrecognized : Nat
  /-- What there was to report. -/
  notices : List Notice
  deriving DecidableEq, Repr

/-- Read a document. -/
def Document.ofText (dialect : Dialect) (t : Text) : Except Failure Document := do
  let parts ← Parts.ofText t
  let r := readLines dialect (bodyLines parts.body)
  pure
    { preamble := parts.preamble
      preserved := parts.preserved
      blocks := dialect.finish r.blocks
      footer := parts.footer
      unbalanced := r.unbalanced
      unrecognized := r.unrecognized
      notices := r.notices }

end FolioGrid
