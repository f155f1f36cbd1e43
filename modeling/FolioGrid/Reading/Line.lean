/-
  FolioGrid.Reading.Line
  ────────────────────────────────
  **LINES OF A BODY.**

  A line is tried as one thing after another, and the first that fits is what
  it is:

      a chapter's heading, a page end, a seal, a paragraph, an entry,
      plain text, a command of the dialect, styled text

  A command that is none of these is counted and kept as text, so that no
  words are lost when a template grows.
-/
import FolioGrid.Dialect.Basic
import FolioGrid.Markup.Style
import FolioGrid.Reading.Entry
import FolioGrid.Reading.Paragraph
import FolioGrid.Reading.Stamp

namespace FolioGrid.Line

open FolioGrid.Text FolioGrid.Markup

/-- What opens a chapter's heading. -/
def chapterOpening : Text := command "chapter" ++ [openBrace]

/-- The command that ends a page. -/
def newPageCommand : Text := command "newpage"

/-- The title of the chapter that a line opens; it reaches to the last closing
brace and takes at least one byte. -/
def chapterTitle? (line : Text) : Option Text :=
  (((after? chapterOpening line).bind (beforeLast? closeBrace)).filter (· ≠ [])).map clean

/-- The words of a line that is one style wrapper with options. -/
def styledText? (line : Text) : Option Text := do
  let arguments ← after? styleCommand line
  let style ← optionalArgument? arguments
  let body ← (braceArgument? style.rest).bind Argument.ifClosed
  pure (clean body.content)

/-- Read a line that starts with a command which only a dialect can know. -/
def readCommand (dialect : Dialect) (line : Text) (lines : List Text) : Reading :=
  let name := commandName line
  let known := if name = [] then none else dialect.readCommand name line lines
  match known with
  | some r => r
  | none =>
    match styledText? line with
    | some t => Reading.ofText t
    | none => { Reading.ofText (clean line) with unrecognized := 1 }

/-- Read a line, given without blanks at its ends, which the first of some
lines is read as. -/
def readTrimmed (dialect : Dialect) (line : Text) (lines : List Text) : Reading :=
  if line = [] then Reading.empty
  else if let some title := chapterTitle? line then Reading.ofBlock (.chapter title)
  else if line = newPageCommand then Reading.ofBlock .newPage
  else if Stamp.isStamp line then Stamp.read lines
  else if let some rest := after? Paragraph.opening line then Paragraph.read rest (lines.drop 1)
  else
    match Entry.ofLine? line with
    | ⟨some entry, notices⟩ => (Reading.ofBlock entry).after notices
    | ⟨none, notices⟩ =>
      if line.head? = some backslash then (readCommand dialect line lines).after notices
      else (Reading.ofText (clean line)).after notices

/-- Whether a line, given without blanks at its ends, says nothing: it is
blank or a comment. -/
def isSilent (line : Text) : Bool := line.isEmpty || line.head? = some percent

/-- Read the first of some lines, and as many after it as it takes. -/
def read (dialect : Dialect) (first : Text) (rest : List Text) : Reading :=
  let line := trimRight first
  if isSilent (trim line) then Reading.empty
  else readTrimmed dialect (trim ((dialect.readAs line).getD line)) (first :: rest)

end FolioGrid.Line
