/-
  FolioGrid.Markup.Command
  ────────────────────────────────
  **COMMANDS.**

  A command is a backslash and a name; the name ends at the first bracket,
  brace or blank.  The writers below spell the forms that the library both
  reads and prints, so that each is spelled in one place.
-/
import FolioGrid.Text.Blank

namespace FolioGrid.Markup

open FolioGrid.Text

/-! ## §1. Writing. -/

/-- A text as a brace argument. -/
def group (t : Text) : Text := openBrace :: t ++ [closeBrace]

/-- A text as an optional argument. -/
def option (t : Text) : Text := openBracket :: t ++ [closeBracket]

/-- The command of a name. -/
def command (name : String) : Text := backslash :: utf8 name

/-- The mark at which an environment begins. -/
def beginMark (environment : String) : Text := command "begin" ++ group (utf8 environment)

/-- The mark at which an environment ends. -/
def endMark (environment : String) : Text := command "end" ++ group (utf8 environment)

/-! ## §2. Reading. -/

/-- The part of a text before the first bracket, brace or blank that could end
a command's name. -/
def nameRun : Text → Text
  | [] => []
  | b :: rest =>
    if b = openBracket || b = openBrace || startsBlank (b :: rest) then []
    else b :: nameRun rest

/-- The name of the command with which a line starts; empty if it starts with
none. -/
def commandName : Text → Text
  | [] => []
  | b :: rest => if b = backslash then nameRun rest else []

end FolioGrid.Markup
