/-
  FolioGrid.Markup.Options
  ────────────────────────────────
  **OPTION LISTS.**

  The content of an optional argument may be a list of options, `key=value` or
  only `key`, between commas.  White around keys, values and items does not
  count, and of two options with one key the later one does.
-/
import FolioGrid.Text.Blank
import FolioGrid.Text.Table

namespace FolioGrid.Markup

open FolioGrid.Text

/-- An option's key and value: what stands before and after the first equals
sign. -/
def optionEntry (item : Text) : Text × Text :=
  let parts := item.span (· != ascii '=')
  (trim parts.1, trim (parts.2.drop 1))

/-- The table of an option list. -/
def optionTable (t : Text) : Table :=
  Table.ofList ((((pieces (ascii ',') t).map trim).filter (· ≠ [])).map optionEntry)

end FolioGrid.Markup
