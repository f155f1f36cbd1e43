/-
  FolioGrid.Proofs.Document.Items
  ────────────────────────────────
  **NO WORD OF A BOOK IS LOST.**

  What a document says and what stands on the grid are the same items in the
  same order.  Reading contributes that glosses are coherent, the layout that
  it keeps the items of coherent blocks.
-/
import FolioGrid.Proofs.Dialect.Glosses
import FolioGrid.Proofs.Document.Parts

namespace FolioGrid

open FolioGrid.Text FolioGrid.Markup

/-- The glosses of a document are coherent, whatever its text. -/
theorem Document.coherent_of_mem_blocks {d : Dialect} (hd : d.BuiltIn) {content : Text}
    {doc : Document} (h : Document.ofText d content = .ok doc) {a : Gloss}
    (ha : Block.gloss a ∈ doc.blocks) : a.Coherent := by
  obtain ⟨parts, -, rfl⟩ := Document.ofText_eq_ok_iff.1 h
  -- no built-in dialect touches the blocks once they are read
  have hread : Block.gloss a ∈ d.finish (readLines d (bodyLines parts.body)).blocks := ha
  rw [hd.finish_eq] at hread
  exact coherent_of_mem_readLines hd hread

/-- **No word is lost between a document and its grid.** In any dialect that has
a name and at any width, if a content can be read and laid out, the columns
have the items of the blocks, each once and in their order. -/
theorem items_columns_eq_items_blocks {name content : Text} {d : Dialect} {s : Settings}
    {doc : Document} {columns : List Column} (hd : Dialect.named name = .ok d)
    (hdoc : Document.ofText d content = .ok doc) (hcolumns : layout s doc.blocks = .ok columns) :
    columns.flatMap Column.items = doc.blocks.flatMap Block.items :=
  items_layout
    (fun _ ha => Document.coherent_of_mem_blocks (Dialect.builtIn_of_named hd) hdoc ha) hcolumns

/-- A page with a heading, a line of text and a gloss that raises a word. -/
def samplePage : Text :=
  inDocument (joinLines
    [utf8 "\\chapter\x7b經部\x7d", utf8 "易類",
      utf8 "\\注\x7b臣等謹案\\相对抬头[2]\x7b御纂周易\x7d\x7d"])

/-- What it says. -/
def samplePageRead : Document where
  preamble := documentBegin
  preserved := [lineFeed]
  blocks :=
    [.chapter (utf8 "經部"), .text (utf8 "易類") 0,
      .gloss ⟨utf8 "臣等謹案御纂周易", 2,
        [⟨utf8 "臣等謹案", 0, false⟩, ⟨utf8 "御纂周易", -2, true⟩]⟩]
  footer := documentEnd
  unbalanced := 0
  unrecognized := 0
  notices := []

/-- Where it stands. -/
def samplePageColumns : List Column :=
  [.chapter (utf8 "經部"), .single (utf8 "易類") 0,
    .dual
      { indent := 2
        right := utf8 "臣等謹案"
        left := utf8 "御纂周易"
        leftIndent := some 0 }]

theorem items_samplePage :
    samplePageColumns.flatMap Column.items = samplePageRead.blocks.flatMap Block.items :=
  items_columns_eq_items_blocks
    (rfl : Dialect.named (utf8 "siku-mulu") = .ok Catalogue.dialect)
    (by decide +kernel : Document.ofText Catalogue.dialect samplePage = .ok samplePageRead)
    (by decide +kernel : layout .standard samplePageRead.blocks = .ok samplePageColumns)

end FolioGrid
