/-
  FolioGrid.GridMarkup.Column
  ────────────────────────────────
  **COLUMNS IN MARKUP.**

  A column is written as one line.  A single column without indent is its
  bare text.  A dual column always says its indent, also if it is zero, so
  that no earlier elevation can move it.
-/
import FolioGrid.Column
import FolioGrid.Markup.Command
import FolioGrid.Text.Number

namespace FolioGrid.GridMarkup

open FolioGrid.Text FolioGrid.Markup

/-- The command that indents what follows. -/
def indentMark (indent : Int) : Text := command "缩进" ++ option (decimal indent)

/-- A column of full-width text in markup. -/
def single (t : Text) (indent : Int) : Text :=
  if indent = 0 then t else indentMark indent ++ ascii ' ' :: t

/-- One half of a dual column in markup. -/
def half (name : String) (indent : Option Int) (t : Text) : Text :=
  let options := indent.elim [] fun i => option (utf8 "indent=" ++ decimal i)
  command name ++ options ++ group t

/-- A dual column in markup. -/
def dual (d : DualColumn) : Text :=
  indentMark d.indent ++ command "双列"
    ++ group (half "右小列" d.rightIndent d.right ++ half "左小列" d.leftIndent d.left)

/-- A seal in markup, which takes no line of its own on the page. -/
def stamp (markup : Text) : Text := markup ++ [percent]

/-- A chapter's heading in markup. -/
def heading (title : Text) : Text := command "chapter" ++ group title

end FolioGrid.GridMarkup
