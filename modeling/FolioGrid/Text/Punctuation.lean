/-
  FolioGrid.Text.Punctuation
  ────────────────────────────────
  **PUNCTUATION.**

  Old books were set without punctuation; modern editions carry it.  What goes
  onto the grid is the text without these marks.  They are removed glyph by
  glyph, so that a byte inside another character is never taken for one.
-/
import FolioGrid.Text.Glyph

namespace FolioGrid.Text

/-- The marks that modern editions add. -/
def punctuation : String := "，。、；：「」『』《》〈〉·？！（）〔〕"

/-- The punctuation marks as texts of one glyph. -/
def marks : List Text := punctuation.toList.map String.utf8EncodeChar

/-- The brackets around a book's title, as texts of one glyph. -/
def bookMarks : List Text := [utf8 "《", utf8 "》"]

/-- A text without the glyphs of a list. -/
def dropGlyphs (unwanted : List Text) (t : Text) : Text :=
  ((glyphs t).filter fun g => !unwanted.contains g).flatten

/-- A text without its punctuation. -/
def stripPunctuation (t : Text) : Text := dropGlyphs marks t

/-- A text without the brackets around book titles. -/
def stripBookMarks (t : Text) : Text := dropGlyphs bookMarks t

/-- A text as it goes onto the grid: without book brackets, then without
punctuation. -/
def clean (t : Text) : Text := stripPunctuation (stripBookMarks t)

end FolioGrid.Text
