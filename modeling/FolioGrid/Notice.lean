/-
  FolioGrid.Notice
  ────────────────────────────────
  **NOTICES.**

  What a conversion reports while it runs: progress, and damage that it could
  work around.  A computation that reports is a `Logged` value; `bind` keeps
  the notices in the order in which they arose.
-/
import FolioGrid.Block
import FolioGrid.Failure

namespace FolioGrid

open FolioGrid.Text

/-! ## §1. Notices. -/

/-- One report. -/
inductive Notice where
  /-- A conversion starts on so many bytes. -/
  | converting (bytes : Nat) (width : Int)
  /-- So many blocks were read. -/
  | parsed (blocks : Nat)
  /-- So many of them are of a kind. -/
  | counted (kind : Kind) (blocks : Nat)
  /-- There are no blocks. -/
  | emptyBody
  /-- So many commands were unknown. -/
  | unrecognized (commands : Nat)
  /-- The grid has so many columns. -/
  | laidOut (columns : Nat)
  /-- So many bytes were generated. -/
  | generated (bytes : Nat)
  /-- A command's braces did not close before the end of the body. -/
  | unbalanced (command : Text) (lines : Nat) (kept : Nat)
  /-- A paragraph did not close before the end of the body. -/
  | openParagraph (kept : Nat)
  /-- An indent among a paragraph's options is no count. -/
  | malformedIndent (key value : Text)
  /-- The level of an entry is too large. -/
  | levelOutOfRange (level : Text)
  /-- An elevation leads above the highest place. -/
  | elevationClamped (level base highest : Int)
  /-- A dialect was chosen. -/
  | dialectChosen (name : Text)
  /-- The input was read. -/
  | inputRead (path : Text) (bytes : Nat)
  /-- The output was written. -/
  | outputWritten (path : Text) (blocks columns halfFolios columnsPerPage : Nat)
  /-- The program gave up. -/
  | failed (failure : Failure)
  deriving DecidableEq, Repr

namespace Notice

/-- Whether a notice reports damage rather than progress. -/
def isWarning : Notice → Bool
  | emptyBody | unbalanced .. | openParagraph .. | malformedIndent .. | levelOutOfRange ..
  | elevationClamped .. | failed .. => true
  | _ => false

/-- A notice in words. -/
def words : Notice → Text
  | converting bytes width =>
    utf8 "convert: input=" ++ natDecimal bytes ++ utf8 " bytes width=" ++ decimal width
  | parsed blocks => utf8 "parse: " ++ natDecimal blocks ++ utf8 " blocks"
  | counted kind blocks => utf8 "  " ++ utf8 kind.name ++ utf8 ": " ++ natDecimal blocks
  | emptyBody => utf8 "convert: body produced no blocks"
  | unrecognized commands =>
    utf8 "parse: " ++ natDecimal commands ++ utf8 " unrecognized commands kept as text"
  | laidOut columns => utf8 "layout: " ++ natDecimal columns ++ utf8 " columns"
  | generated bytes => utf8 "generate: " ++ natDecimal bytes ++ utf8 " bytes"
  | unbalanced command lines kept =>
    utf8 "collectBraced: " ++ quoted (printable command) ++ utf8 " unbalanced after "
      ++ natDecimal lines ++ utf8 " lines, salvaged " ++ natDecimal kept ++ utf8 " bytes"
  | openParagraph kept =>
    utf8 "parser: paragraph not closed before end of body, keeping " ++ natDecimal kept
      ++ utf8 " bytes"
  | malformedIndent key value =>
    utf8 "parser: ignoring malformed " ++ printable key ++ utf8 "=" ++ quoted (printable value)
  | levelOutOfRange level =>
    utf8 "parser: entry level " ++ quoted (printable level) ++ utf8 " out of range"
  | elevationClamped level base highest =>
    utf8 "expandInJiazhu: elevation " ++ decimal level ++ utf8 " from indent " ++ decimal base
      ++ utf8 " clamped to " ++ decimal highest
  | dialectChosen name => utf8 "plugin: " ++ printable name
  | inputRead path bytes =>
    utf8 "read " ++ printable path ++ utf8 " (" ++ natDecimal bytes ++ utf8 " bytes)"
  | outputWritten path blocks columns halfFolios columnsPerPage =>
    utf8 "wrote " ++ printable path ++ utf8 ": " ++ natDecimal blocks ++ utf8 " blocks, "
      ++ natDecimal columns ++ utf8 " columns (~" ++ natDecimal halfFolios
      ++ utf8 " half-folios of " ++ natDecimal columnsPerPage ++ utf8 " columns)"
  | failed failure => failure.message

/-- The line that a notice prints. -/
def line (n : Notice) : Text :=
  (if n.isWarning then utf8 "[gujidigital W] " else utf8 "[gujidigital I] ") ++ n.words

end Notice

/-! ## §2. Computations that report. -/

/-- A value and what was reported while it was computed. -/
structure Logged (α : Type) where
  /-- The value. -/
  value : α
  /-- The notices, in order. -/
  notices : List Notice := []

/-- Go on with a value, after what was reported so far. -/
def Logged.bind {α β : Type} (x : Logged α) (f : α → Logged β) : Logged β :=
  ⟨(f x.value).value, x.notices ++ (f x.value).notices⟩

instance : Monad Logged where
  pure a := ⟨a, []⟩
  bind := Logged.bind

/-- Report something. -/
def Logged.report (n : Notice) : Logged Unit := ⟨(), [n]⟩

end FolioGrid
