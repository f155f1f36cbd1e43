/-
  FolioGrid.Text.Glyph
  ────────────────────────────────
  **GLYPHS.**

  A glyph is what fills one slot of the grid: one code point of UTF-8.  Its
  first byte alone says how many bytes it has (`glyphWidth`).  A byte that can
  open no code point stands for itself, and the last glyph of a text is shorter
  than its first byte says when the text ends too early.
-/
import FolioGrid.Text.Basic

namespace FolioGrid.Text

/-- How many bytes the glyph has that a byte opens. -/
def glyphWidth (lead : UInt8) : Nat :=
  if lead < 0xC0 then 1
  else if lead < 0xE0 then 2
  else if lead < 0xF0 then 3
  else if lead < 0xF8 then 4
  else 1

/-- The glyphs of a text, in order. -/
def glyphs : Text → List Text
  | [] => []
  | lead :: rest =>
    (lead :: rest.take (glyphWidth lead - 1)) :: glyphs (rest.drop (glyphWidth lead - 1))
termination_by t => t.length
decreasing_by simp only [List.length_drop, List.length_cons]; omega

/-- The glyphs of a text give the text back. -/
theorem flatten_glyphs (t : Text) : (glyphs t).flatten = t := by
  fun_induction glyphs t with
  | case1 => rfl
  | case2 lead rest ih => simp [ih]

/-- A text that is not empty has a glyph. -/
theorem exists_glyphs_cons {t : Text} (h : t ≠ []) : ∃ g gs, glyphs t = g :: gs := by
  cases t with
  | nil => exact absurd rfl h
  | cons lead rest => exact ⟨_, _, by rw [glyphs]⟩

end FolioGrid.Text
