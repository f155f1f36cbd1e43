/-
  FolioGrid.Text.Number
  ────────────────────────────────
  **NUMERALS.**

  A count is written in the markup with ASCII digits only: no sign, no blank,
  leading zeros allowed, at most `maxCount`.  An indent is written on the grid
  in the shortest decimal form, with a minus sign where it lies above the
  margin.
-/
import FolioGrid.Text.Basic

namespace FolioGrid.Text

/-! ## §1. Reading. -/

/-- Whether a byte is an ASCII digit. -/
def isDigit (b : UInt8) : Bool := 0x30 ≤ b && b ≤ 0x39

/-- Whether a text is a numeral: one digit or more and nothing else. -/
def isNumeral (t : Text) : Bool := !t.isEmpty && t.all isDigit

/-- The number that digits write. -/
def numeralValue (t : Text) : Nat := t.foldl (fun n b => 10 * n + (b.toNat - 48)) 0

/-- The largest count: what 31 bits hold. -/
def maxCount : Nat := 2147483647

/-- The count that a text writes, if it is a numeral and in range. -/
def count? (t : Text) : Option Nat :=
  if isNumeral t && numeralValue t ≤ maxCount then some (numeralValue t) else none

/-! ## §2. Writing. -/

/-- The ASCII digit of a number below ten. -/
def digit (n : Nat) : UInt8 := UInt8.ofNat (48 + n)

/-- The decimal digits of a number, without leading zeros. -/
def natDecimal (n : Nat) : Text :=
  if n < 10 then [digit n] else natDecimal (n / 10) ++ [digit (n % 10)]

/-- The decimal form of an integer. -/
def decimal : Int → Text
  | .ofNat n => natDecimal n
  | .negSucc n => ascii '-' :: natDecimal (n + 1)

end FolioGrid.Text
