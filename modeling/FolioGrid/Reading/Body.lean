/-
  FolioGrid.Reading.Body
  ────────────────────────────────
  **BODIES.**

  A body is read line by line.  Each reading takes one line at least, whatever
  it says of itself, and the next one starts where it stopped.
-/
import FolioGrid.Reading.Line

namespace FolioGrid

open FolioGrid.Text

/-- How many lines a reading takes: not less than one. -/
def Reading.taken (r : Reading) : Nat := max 1 r.lines

/-- Read lines to their end. -/
def readLines (dialect : Dialect) : List Text → Reading
  | [] => Reading.empty
  | first :: rest =>
    let r := Line.read dialect first rest
    r ++ readLines dialect (rest.drop (r.taken - 1))
termination_by lines => lines.length
decreasing_by simp only [List.length_drop, List.length_cons]; omega

end FolioGrid
