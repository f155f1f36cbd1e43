/-
  FolioGrid.GridMarkup.Document
  ────────────────────────────────
  **DOCUMENTS IN MARKUP.**

  A document of the grid is a list of entries, one below the other.  Columns
  stand inside an environment, one for each chapter.  The first heading stands
  in front of the first environment, wherever in the book it was; each later
  one closes an environment, turns the page and opens the next.  Page breaks do
  not pile up, and one right before an environment closes is dropped, since
  the page is turned there anyway.
-/
import FolioGrid.GridMarkup.Column
import FolioGrid.GridMarkup.Preamble

namespace FolioGrid.GridMarkup

open FolioGrid.Text FolioGrid.Markup

/-! ## §1. The content. -/

/-- The environment of columns. -/
def contentName : String := "数字化内容"

/-- The entry that opens an environment of columns. -/
def contentBegin : Text := beginMark contentName

/-- The entry that closes it. -/
def contentEnd : Text := endMark contentName

/-- The entry that ends a page between columns. -/
def pageBreak : Text := command "换页"

/-- The entry that turns the page between chapters. -/
def newPage : Text := command "newpage"

/-- The content as far as it has been written. -/
structure Written where
  /-- The entries, the last one first. -/
  entries : List Text
  /-- Whether a heading has been met. -/
  headed : Bool
  deriving DecidableEq, Repr

namespace Written

/-- The content before any column. -/
def start : Written := ⟨[contentBegin], false⟩

/-- One more entry. -/
def push (w : Written) (entry : Text) : Written := { w with entries := entry :: w.entries }

/-- The content without a page break at its end. -/
def dropBreak (w : Written) : Written :=
  match w.entries with
  | [] => w
  | entry :: rest => if entry = pageBreak then { w with entries := rest } else w

/-- The content with one more column. -/
def add (w : Written) : Column → Written
  | .chapter title =>
    if w.headed then
      (((w.dropBreak.push contentEnd).push newPage).push (heading title)).push contentBegin
    else { w with headed := true }
  | .newPage => if w.entries.head? = some pageBreak then w else w.push pageBreak
  | .stamp markup => w.push (stamp markup)
  | .single t indent => w.push (single t indent)
  | .dual d => w.push (dual d)

end Written

/-- The entries of some columns, from the first opening of an environment on. -/
def contentEntries (columns : List Column) : List Text :=
  (columns.foldl Written.add Written.start).entries.reverse

/-! ## §2. The document. -/

/-- The title of the first heading. -/
def firstTitle? (columns : List Column) : Option Text :=
  columns.findSome? fun
    | .chapter title => some title
    | _ => none

/-- The entries of the front matter; none if it is blank. -/
def frontEntries (preserved : Text) : List Text :=
  if trim preserved = [] then [] else [trimRight preserved, []]

/-- The last entry: the footer, or else the mark of the document's end. -/
def footerEntry (footer : Text) : Text :=
  if trimRight footer = [] then endMark "document" else trimRight footer

/-- The entries of a document. -/
def documentEntries (s : Settings) (d : Dialect) (before preserved : Text)
    (columns : List Column) (footer : Text) : List Text :=
  [preamble s d before, []] ++ frontEntries preserved
    ++ ((firstTitle? columns).map heading).toList ++ contentEntries columns
    ++ [[], contentEnd, footerEntry footer, []]

/-- A document of the grid: the preamble of a source document, the front matter
that is kept, the columns, and the footer. -/
def document (s : Settings) (d : Dialect) (before preserved : Text)
    (columns : List Column) (footer : Text) : Text :=
  joinLines (documentEntries s d before preserved columns footer)

end FolioGrid.GridMarkup
