/-
  FolioGrid.Markup.Argument
  ────────────────────────────────
  **ARGUMENTS OF COMMANDS.**

  A command's argument stands between delimiters of one kind, which may nest.
  Only that kind is counted: a bracket inside braces is text, and so is a
  brace inside brackets.  An argument whose closer is missing is not refused.
  It takes all that is left and says so (`closed = false`), because a damaged
  book is still to be converted.
-/
import FolioGrid.Text.Blank

namespace FolioGrid.Markup

open FolioGrid.Text

/-! ## §1. Delimiters. -/

/-- The two bytes between which an argument stands. -/
structure Delimiters where
  /-- The byte that opens an argument. -/
  opener : UInt8
  /-- The byte that closes it. -/
  closer : UInt8
  deriving DecidableEq, Repr

/-- The delimiters of a mandatory argument. -/
def braces : Delimiters := ⟨openBrace, closeBrace⟩

/-- The delimiters of an optional argument. -/
def brackets : Delimiters := ⟨openBracket, closeBracket⟩

/-- What stands between the delimiters, and what follows the closer, of a text
whose opener has been read already. -/
def Delimiters.balanced? (d : Delimiters) (t : Text) : Option (Text × Text) :=
  go 0 [] t
where
  /-- The scan at a depth of nested openers, with the content so far in
  reverse. -/
  go (depth : Nat) (passed : Text) : Text → Option (Text × Text)
    | [] => none
    | b :: rest =>
      if b = d.opener then go (depth + 1) (b :: passed) rest
      else if b = d.closer then
        match depth with
        | 0 => some (passed.reverse, rest)
        | outer + 1 => go outer (b :: passed) rest
      else go depth (b :: passed) rest

/-- Bytes already passed only lengthen the content. -/
theorem Delimiters.balanced?_go_eq (d : Delimiters) (t : Text) (depth : Nat) (passed : Text) :
    Delimiters.balanced?.go d depth passed t
      = (Delimiters.balanced?.go d depth [] t).map fun p => (passed.reverse ++ p.1, p.2) := by
  induction t generalizing depth passed with
  | nil => rfl
  | cons b rest ih =>
    simp only [Delimiters.balanced?.go]
    split
    · rw [ih _ (b :: passed), ih _ [b]]
      simp [Function.comp_def]
    · split
      · split
        · simp
        · rw [ih _ (b :: passed), ih _ [b]]
          simp [Function.comp_def]
      · rw [ih _ (b :: passed), ih _ [b]]
        simp [Function.comp_def]

/-! ## §2. Arguments. -/

/-- An argument that was read. -/
structure Argument where
  /-- What stands between the delimiters. -/
  content : Text
  /-- What follows the argument. -/
  rest : Text
  /-- Whether the closer was there. -/
  closed : Bool
  deriving DecidableEq, Repr

/-- The argument of a text whose opener has been read already. -/
def Delimiters.argument (d : Delimiters) (t : Text) : Argument :=
  match d.balanced? t with
  | some (content, rest) => ⟨content, rest, true⟩
  | none => ⟨t, [], false⟩

/-- The argument in delimiters with which a text starts. -/
def Delimiters.argument? (d : Delimiters) : Text → Option Argument
  | [] => none
  | b :: rest => if b = d.opener then some (d.argument rest) else none

/-- The brace argument with which a text starts. -/
def braceArgument? (t : Text) : Option Argument := braces.argument? t

/-- The optional argument with which a text starts; ASCII whitespace may stand
in front of it. -/
def optionalArgument? (t : Text) : Option Argument := brackets.argument? (t.dropWhile isSpace)

/-- The argument, if its closer was there. -/
def Argument.ifClosed (a : Argument) : Option Argument := if a.closed then some a else none

/-- A following argument is no longer than the scanned text. -/
theorem Delimiters.balanced?_go_length {d : Delimiters} {t : Text} {depth : Nat}
    {passed content rest : Text}
    (h : Delimiters.balanced?.go d depth passed t = some (content, rest)) :
    content.length + rest.length < passed.length + t.length := by
  induction t generalizing depth passed with
  | nil => simp [Delimiters.balanced?.go] at h
  | cons b u ih =>
    have longer : (b :: passed).length + u.length = passed.length + (b :: u).length := by
      simp only [List.length_cons]; omega
    simp only [Delimiters.balanced?.go] at h
    split at h
    · rw [← longer]; exact ih h
    · split at h
      · split at h
        · cases h
          simp
        · rw [← longer]; exact ih h
      · rw [← longer]; exact ih h

/-- Content and rest together are shorter than a text with an argument. -/
theorem Delimiters.length_lt_of_argument? {d : Delimiters} {t : Text} {a : Argument}
    (h : d.argument? t = some a) : a.content.length + a.rest.length < t.length := by
  cases t with
  | nil => simp [Delimiters.argument?] at h
  | cons b u =>
    simp only [Delimiters.argument?] at h
    split at h
    · cases h
      simp only [Delimiters.argument]
      split
      · next content rest hb =>
        have := Delimiters.balanced?_go_length hb
        simp only [List.length_nil, List.length_cons] at this ⊢
        omega
      · simp
    · cases h

/-- What follows an optional argument is shorter than the text. -/
theorem length_rest_lt_of_optionalArgument? {t : Text} {a : Argument}
    (h : optionalArgument? t = some a) : a.rest.length < t.length := by
  have hlt := Delimiters.length_lt_of_argument? h
  have hle : (t.dropWhile isSpace).length ≤ t.length := (List.dropWhile_sublist _).length_le
  omega

/-- What follows an optional argument, or the text itself if it starts with
none. -/
def skipOption (t : Text) : Text :=
  match optionalArgument? t with
  | some a => a.rest
  | none => t

/-- Skipping an optional argument makes no text longer. -/
theorem length_skipOption_le (t : Text) : (skipOption t).length ≤ t.length := by
  unfold skipOption
  split
  · next h => exact Nat.le_of_lt (length_rest_lt_of_optionalArgument? h)
  · exact Nat.le_refl _

end FolioGrid.Markup
