/-
  FolioGrid.Text.Table
  ────────────────────────────────
  **TABLES FROM TEXTS TO TEXTS.**

  A table is a list of entries, sorted by the bytes of their keys and with one
  entry a key, so that equal tables are equal lists.  Writing a key again
  replaces what it had (`get?_insert`).
-/
import FolioGrid.Text.Basic

namespace FolioGrid.Text

/-- A sorted list of keys and what they stand for. -/
structure Table where
  /-- The entries, by the bytes of their keys. -/
  entries : List (Text × Text)
  deriving DecidableEq, Repr

namespace Table

/-- The table without entries. -/
def empty : Table := ⟨[]⟩

/-- Let a key stand for a value, in place of what it stood for. -/
def insert (table : Table) (key value : Text) : Table :=
  ⟨go table.entries⟩
where
  /-- The place of the key is in front of the first larger one. -/
  go : List (Text × Text) → List (Text × Text)
    | [] => [(key, value)]
    | entry :: rest =>
      if key < entry.1 then (key, value) :: entry :: rest
      else if key = entry.1 then (key, value) :: rest
      else entry :: go rest

/-- What a key stands for. -/
def get? (table : Table) (key : Text) : Option Text :=
  (table.entries.find? fun entry => entry.1 = key).map (·.2)

/-- A table with further entries, each in place of what its key stood for. -/
def insertAll (table : Table) (entries : List (Text × Text)) : Table :=
  entries.foldl (fun t entry => t.insert entry.1 entry.2) table

/-- The table of a list of entries, of which the last one of a key counts. -/
def ofList (entries : List (Text × Text)) : Table := empty.insertAll entries

/-- A table in which the entries of a second one go first. -/
def override (table other : Table) : Table := table.insertAll other.entries

/-- The last value that was written for a key is the one found. -/
theorem get?_insert (table : Table) (key value k : Text) :
    (table.insert key value).get? k = if k = key then some value else table.get? k := by
  obtain ⟨entries⟩ := table
  simp only [insert, get?]
  induction entries with
  | nil => simp [insert.go, List.find?_cons]; grind
  | cons entry rest ih => simp only [insert.go]; grind

end Table

end FolioGrid.Text
