/-
  FolioGrid.Text.Blank
  ────────────────────────────────
  **WHITESPACE.**

  White on a page is one of two things: an ASCII whitespace byte, or the three
  bytes of the ideographic space U+3000.  Both count as one blank.  No byte of
  a blank can stand inside another, so blanks may be read from either end of a
  text and give the same answer: `trimRight` reads the reversed text with the
  ideographic space spelled backwards.
-/
import FolioGrid.Text.Basic

namespace FolioGrid.Text

/-! ## §1. Blanks. -/

/-- Space, tab, line feed, vertical tab, form feed or carriage return. -/
def isSpace (b : UInt8) : Bool :=
  b == 0x20 || (0x09 ≤ b && b ≤ 0x0D)

/-- The ideographic space, U+3000. -/
def wideSpace : Text := [0xE3, 0x80, 0x80]

/-- Whether a blank stands at the head of a text. -/
def startsBlank : Text → Bool
  | [] => false
  | b :: rest => isSpace b || wideSpace.isPrefixOf (b :: rest)

/-! ## §2. Trimming. -/

/-- Drop the blanks in front of a text, where `wide` is the spelling of the
three-byte blank. -/
def dropBlanks (wide : Text) : Text → Text
  | [] => []
  | a :: rest =>
    if isSpace a then dropBlanks wide rest
    else
      match rest with
      | b :: c :: after => if wide = [a, b, c] then dropBlanks wide after else a :: rest
      | _ => a :: rest

/-- A text without the blanks in front of it. -/
def trimLeft (t : Text) : Text := dropBlanks wideSpace t

/-- A text without the blanks behind it. -/
def trimRight (t : Text) : Text := (dropBlanks wideSpace.reverse t.reverse).reverse

/-- A text without the blanks at its two ends. -/
def trim (t : Text) : Text := trimLeft (trimRight t)

/-- A text without any blank. -/
def removeBlanks : Text → Text
  | [] => []
  | a :: rest =>
    if isSpace a then removeBlanks rest
    else
      match rest with
      | b :: c :: after =>
        if wideSpace = [a, b, c] then removeBlanks after
        else a :: removeBlanks (b :: c :: after)
      | short => a :: removeBlanks short

end FolioGrid.Text
