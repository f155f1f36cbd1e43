/-
  FolioGrid.Settings
  ────────────────────────────────
  **SETTINGS OF A CONVERSION.**

  How wide the grid is, under which names the templates of source documents
  are known to the target, and which packages the target does without.
-/
import FolioGrid.Text.Table

namespace FolioGrid

open FolioGrid.Text

/-- What a conversion can be told. -/
structure Settings where
  /-- How many characters a column holds. -/
  width : Int
  /-- How many columns stand on a half-folio. -/
  columnsPerPage : Nat
  /-- The target's names of templates. -/
  templates : Table
  /-- The packages that are dropped from a preamble. -/
  removedPackages : List Text

/-- The templates that every conversion knows. -/
def standardTemplates : Table :=
  Table.ofList
    [(utf8 "四库全书彩色", utf8 "SiKuQuanShu-colored"),
     (utf8 "四库全书", utf8 "default"),
     (utf8 "红楼梦甲戌本", utf8 "HongLouMengJiaXuBen")]

/-- The settings of a conversion that was told nothing. -/
def Settings.standard : Settings where
  width := 21
  columnsPerPage := 8
  templates := standardTemplates
  removedPackages := [utf8 "enumitem", utf8 "tikz"]

/-- How many characters a column holds below an indent; none or fewer if the
indent is as deep as the column. -/
def Settings.roomAt (s : Settings) (indent : Int) : Int := s.width - indent

end FolioGrid
