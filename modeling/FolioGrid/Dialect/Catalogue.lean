/-
  FolioGrid.Dialect.Catalogue
  ────────────────────────────────
  **THE DIALECT OF THE IMPERIAL CATALOGUE.**

  The concise catalogue of the Four Treasuries annotates its entries: `\注`
  opens a gloss, `\按` an editor's note, which stands deeper.  Both may
  run over lines and may raise words.
-/
import FolioGrid.Dialect.Basic
import FolioGrid.Dialect.Elevation
import FolioGrid.Markup.Style
import FolioGrid.Reading.Collect
import FolioGrid.Text.Punctuation

namespace FolioGrid.Catalogue

open FolioGrid.Text FolioGrid.Markup

/-- The indent of a gloss. -/
def glossIndent : Int := 2

/-- The indent of an editor's note. -/
def noteIndent : Int := 4

/-- Segments as they go onto the grid.  One of which nothing is left hands its
break on to the next. -/
def cleanSegments (carried : Bool) : List Segment → List Segment
  | [] => []
  | s :: rest =>
    if clean s.text = [] then cleanSegments (carried || s.force) rest
    else ⟨clean s.text, s.delta, s.force || carried⟩ :: cleanSegments false rest

/-- The gloss of some segments at an indent; none if there are none.  One
segment at the indent itself is a text of one piece. -/
def gloss? (indent : Int) : List Segment → Option Gloss
  | [] => none
  | s :: rest =>
    some
      { text := (s :: rest).flatMap (·.text)
        indent := indent
        segments := if rest = [] ∧ s.delta = 0 then [] else s :: rest }

/-- Read a gloss whose command stands in the first of some lines. -/
def readGloss (command : Text) (indent : Int) (unwrap : Bool) (lines : List Text) :
    Reading :=
  let collected := collect command lines
  let content := if unwrap then unwrapStyles collected.content else collected.content
  let expanded := Elevation.expand content indent
  let gloss := gloss? indent (cleanSegments false expanded.value)
  let reading := collected.reading command (gloss.toList.map .gloss)
  { reading with notices := reading.notices ++ expanded.notices }

/-- Read a gloss or an editor's note. -/
def readCommand (name _line : Text) (lines : List Text) : Option Reading :=
  if name = utf8 "注" then some (readGloss (command "注") glossIndent true lines)
  else if name = utf8 "按" then some (readGloss (command "按") noteIndent false lines)
  else none

/-- The dialect of the catalogue. -/
def dialect : Dialect where
  templates := Table.ofList [(utf8 "四库全书文渊阁简明目录", utf8 "SikuWenyuanMulu")]
  readCommand := readCommand
  expand := Elevation.expand

end FolioGrid.Catalogue
