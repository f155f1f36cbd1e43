/-
  FolioGrid.Dialect.Named
  ────────────────────────────────
  **DIALECTS BY NAME.**

  A user asks for a dialect by its name; no name, or the name `none`, asks for
  the plain one.
-/
import FolioGrid.Dialect.Catalogue

namespace FolioGrid.Dialect

open FolioGrid.Text

/-- The dialects that have a name of their own. -/
def available : List (Text × Dialect) := [(utf8 "siku-mulu", Catalogue.dialect)]

/-- The dialect of a name. -/
def named (name : Text) : Except Failure Dialect :=
  if name = [] ∨ name = utf8 "none" then .ok plain
  else
    match available.find? (·.1 = name) with
    | some entry => .ok entry.2
    | none => .error (.unknownDialect name)

end FolioGrid.Dialect
