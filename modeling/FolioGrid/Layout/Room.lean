/-
  FolioGrid.Layout.Room
  ────────────────────────────────
  **ROOM IN A COLUMN.**

  An indent takes room from a column.  Where it takes all, nothing can be set,
  and the layout fails; but it fails only where something is to be set.
-/
import FolioGrid.Failure
import FolioGrid.Settings

namespace FolioGrid

/-- How many glyphs fit below an indent, which is one at least. -/
def Settings.capacity (s : Settings) (indent : Int) : Except Failure Nat :=
  if s.roomAt indent ≤ 0 then .error (.noRoom indent s.width)
  else .ok (s.roomAt indent).toNat

/-- A capacity is positive. -/
theorem Settings.capacity_pos {s : Settings} {indent : Int} {n : Nat}
    (h : s.capacity indent = .ok n) : 0 < n := by
  unfold Settings.capacity at h
  split at h
  · cases h
  · cases h
    omega

end FolioGrid
