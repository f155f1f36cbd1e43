/-
  FolioGrid.Failure
  ────────────────────────────────
  **WHY A CONVERSION FAILS.**

  A damaged book is converted as far as it goes; what is here are the few
  causes that leave nothing to convert, or no place to put it.  Messages end
  at a NUL byte, since they are printed as lines.
-/
import FolioGrid.Text.Number

namespace FolioGrid

open FolioGrid.Text

/-- A text as far as a printed line shows it: up to its first NUL. -/
def printable (t : Text) : Text := t.takeWhile (· ≠ 0)

/-- The cause of a failure. -/
inductive Failure where
  /-- The content lacks a mark of the document's begin or end. -/
  | documentNotFound
  /-- The document ends before it begins. -/
  | documentReversed
  /-- No glyph fits below an indent in a column of the given width. -/
  | noRoom (indent width : Int)
  /-- There is no dialect of this name. -/
  | unknownDialect (name : Text)
  /-- The grid width on the command line is no width. -/
  | invalidWidth (argument : Text)
  /-- The input cannot be read. -/
  | unreadable (path : Text)
  /-- The output cannot be written. -/
  | unwritable (path : Text)
  deriving DecidableEq, Repr

/-- A text in single quotes. -/
def quoted (t : Text) : Text := utf8 "'" ++ t ++ utf8 "'"

/-- A failure in words. -/
def Failure.message (failure : Failure) : Text := printable <|
  match failure with
  | documentNotFound => utf8 "cannot find \\begin\x7bdocument\x7d or \\end\x7bdocument\x7d"
  | documentReversed => utf8 "\\end\x7bdocument\x7d appears before \\begin\x7bdocument\x7d"
  | noRoom indent width =>
    utf8 "indent " ++ decimal indent ++ utf8 " leaves no room in a column of "
      ++ decimal width ++ utf8 " characters"
  | unknownDialect name => utf8 "unknown plugin " ++ quoted name
  | invalidWidth argument => utf8 "invalid --chars-per-column " ++ quoted argument
  | unreadable path => utf8 "cannot open input " ++ quoted path
  | unwritable path => utf8 "cannot open output " ++ quoted path

end FolioGrid
