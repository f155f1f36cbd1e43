/-
  FolioGrid.Conversion
  ────────────────────────────────
  **CONVERSIONS.**

  A conversion reads a document, lays its blocks out and writes the grid.  It
  reports each step.  Damage that it could work around makes no failure; it is
  told by the warnings of the result.
-/
import FolioGrid.Document
import FolioGrid.GridMarkup.Document
import FolioGrid.Layout.Basic

namespace FolioGrid

open FolioGrid.Text

/-- What a result should be looked at for. -/
inductive Warning where
  /-- The body says nothing. -/
  | emptyContent
  /-- Some command did not close. -/
  | unbalancedBraces
  /-- Some command was unknown. -/
  | unrecognizedCommand
  deriving DecidableEq, Repr

/-- The name of a warning in reports. -/
def Warning.name : Warning → String
  | emptyContent => "EmptyContent"
  | unbalancedBraces => "UnbalancedBraces"
  | unrecognizedCommand => "UnrecognizedCommand"

/-- The result of a conversion. -/
structure Conversion where
  /-- The document of the grid. -/
  output : Text
  /-- How many blocks were read. -/
  blocks : Nat
  /-- How many columns there are. -/
  columns : Nat
  /-- How many blocks there are of each kind that occurs. -/
  counts : List (Kind × Nat)
  /-- What the result should be looked at for. -/
  warnings : List Warning
  deriving DecidableEq, Repr

/-- What a document should be looked at for. -/
def Document.warnings (doc : Document) : List Warning :=
  (if doc.blocks = [] then [.emptyContent] else [])
    ++ (if doc.unbalanced = 0 then [] else [.unbalancedBraces])
    ++ (if doc.unrecognized = 0 then [] else [.unrecognizedCommand])

/-- The report on what a document says. -/
def Document.summary (doc : Document) : List Notice :=
  [.parsed doc.blocks.length]
    ++ (countKinds doc.blocks).map (fun p => .counted p.1 p.2)
    ++ (if doc.blocks = [] then [.emptyBody] else [])
    ++ (if doc.unrecognized = 0 then [] else [.unrecognized doc.unrecognized])

/-- Write a document that has been read with its columns. -/
def Document.render (doc : Document) (s : Settings) (d : Dialect) (columns : List Column) : Text :=
  GridMarkup.document s d doc.preamble doc.preserved columns doc.footer

/-- Convert a document that has been read. -/
def Document.convert (doc : Document) (s : Settings) (d : Dialect) :
    Logged (Except Failure Conversion) :=
  let read := doc.notices ++ doc.summary
  match layout s doc.blocks with
  | .error failure => ⟨.error failure, read⟩
  | .ok columns =>
    let output := doc.render s d columns
    { value :=
        .ok
          { output := output
            blocks := doc.blocks.length
            columns := columns.length
            counts := countKinds doc.blocks
            warnings := doc.warnings }
      notices := read ++ [.laidOut columns.length, .generated output.length] }

/-- Convert a text. -/
def convert (s : Settings) (d : Dialect) (content : Text) : Logged (Except Failure Conversion) :=
  let start := Notice.converting content.length s.width
  match Document.ofText d content with
  | .error failure => ⟨.error failure, [start]⟩
  | .ok doc =>
    let result := doc.convert s d
    { result with notices := start :: result.notices }

end FolioGrid
