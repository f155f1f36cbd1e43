/-
  FolioGrid.GridMarkup.Preamble
  ────────────────────────────────
  **PREAMBLES.**

  The preamble of a source document is taken over line by line: the document
  class becomes that of the grid, with the target's name of the template;
  packages that the grid does without and comments are dropped; and of blank
  lines in a row one is left.
-/
import FolioGrid.Dialect.Basic
import FolioGrid.Markup.Command
import FolioGrid.Settings
import FolioGrid.Text.Blank

namespace FolioGrid.GridMarkup

open FolioGrid.Text FolioGrid.Markup

/-! ## §1. The document class. -/

/-- What opens the line of the document class. -/
def classOpening : Text := command "documentclass" ++ [openBracket]

/-- The classes of source documents. -/
def sourceClasses : List Text := [utf8 "guji", utf8 "ltc-guji"]

/-- The class of the grid. -/
def gridClass : Text := utf8 "guji-digital"

/-- The template that the class line of a source document names. -/
def sourceTemplate? (line : Text) : Option Text := do
  let rest ← after? classOpening line
  let (name, tail) := rest.span (· ≠ closeBracket)
  if name ≠ [] ∧ tail ≠ [] ∧ sourceClasses.any (fun c => (group c).isPrefixOf (tail.drop 1))
  then pure name
  else none

/-- The class line of the grid for a template. -/
def classLine (template : Text) : Text :=
  command "documentclass" ++ option template ++ group gridClass

/-- The target's names of templates; those of the dialect go first. -/
def templateNames (s : Settings) (d : Dialect) : Table := s.templates.override d.templates

/-! ## §2. Lines. -/

/-- Whether a line loads a package that is dropped. -/
def loadsRemoved (s : Settings) (line : Text) : Bool :=
  s.removedPackages.any fun p => (command "usepackage" ++ group p).isPrefixOf (trim line)

/-- What becomes of a line of the preamble; none if it is dropped. -/
def preambleLine? (s : Settings) (d : Dialect) (line : Text) : Option Text :=
  match sourceTemplate? line with
  | some name => some (classLine (((templateNames s d).get? name).getD name))
  | none =>
    if loadsRemoved s line ∨ (trim line).head? = some percent then none else some line

/-- Lines of which no two in a row are blank; `afterBlank` says whether a blank
one came before. -/
def collapseBlank (afterBlank : Bool) : List Text → List Text
  | [] => []
  | line :: rest =>
    if trim line = [] then
      if afterBlank then collapseBlank true rest else line :: collapseBlank true rest
    else line :: collapseBlank false rest

/-- A preamble of the grid from that of a source document. -/
def preamble (s : Settings) (d : Dialect) (t : Text) : Text :=
  joinLines (collapseBlank false ((lines t).filterMap (preambleLine? s d)))

end FolioGrid.GridMarkup
