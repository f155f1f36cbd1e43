/-
  FolioGrid.Proofs.Layout.Items
  ────────────────────────────────
  **NOTHING IS LOST ON THE WAY TO THE GRID.**

  Blocks and columns are two ways to arrange the same items: headings, page
  ends, seals, and the bytes of the words between them.

      Block.items    — the items of a block; a gloss counts by its text
      Column.items   — the items of a column; a dual one is read from the right
      Gloss.Coherent — the segments of a gloss, if any, spell its text

  Main result: `items_layout`.  A layout of blocks whose glosses are coherent
  has the items of the blocks, in their order.
-/
import FolioGrid.Proofs.Layout.Room
import Mathlib.Data.List.Basic

namespace FolioGrid

open FolioGrid.Text

/-! ## §1. Items. -/

/-- What a reader meets in a book. -/
inductive Item where
  /-- A chapter's heading. -/
  | heading (title : Text)
  /-- The end of a page. -/
  | pageEnd
  /-- A seal. -/
  | stamp (markup : Text)
  /-- One byte of the words. -/
  | byte (b : UInt8)
  deriving DecidableEq, Repr

/-- The bytes of some words. -/
def Item.ofText (t : Text) : List Item := t.map .byte

theorem Item.ofText_append (t u : Text) : Item.ofText (t ++ u) = Item.ofText t ++ Item.ofText u :=
  List.map_append

/-- The items of texts are those of the texts together. -/
theorem Item.flatMap_ofText {α : Type} (l : List α) (f : α → Text) :
    l.flatMap (fun a => Item.ofText (f a)) = Item.ofText (l.flatMap f) := by
  unfold Item.ofText
  rw [List.map_flatMap]

/-- The items of a block. -/
def Block.items : Block → List Item
  | .chapter title => [.heading title]
  | .newPage => [.pageEnd]
  | .stamp markup => [.stamp markup]
  | .text t _ => Item.ofText t
  | .entry _ t => Item.ofText t
  | .paragraph p => Item.ofText p.text
  | .gloss a => Item.ofText a.text

/-- The items of a column, the right half of a dual one before the left. -/
def Column.items : Column → List Item
  | .chapter title => [.heading title]
  | .newPage => [.pageEnd]
  | .stamp markup => [.stamp markup]
  | .single t _ => Item.ofText t
  | .dual d => Item.ofText d.right ++ Item.ofText d.left

/-- A gloss whose segments, if there are any, spell its text. -/
def Gloss.Coherent (a : Gloss) : Prop := a.segments = [] ∨ a.segments.flatMap (·.text) = a.text

/-! ## §2. Lines and paragraphs. -/

theorem flatten_chunks {α : Type} {n : Nat} (hn : 0 < n) (l : List α) :
    (chunks n l).flatten = l := by
  induction n, l using chunks.induct with
  | case1 l => omega
  | case2 n _ => simp [chunks]
  | case3 n a rest ih =>
    rw [chunks, List.flatten_cons, ih hn, List.cons_append, List.take_append_drop]

variable {s : Settings}

/-- Running text stands in its columns, item by item. -/
theorem items_lineColumns {t : Text} {indent : Int} {columns : List Column}
    (h : lineColumns s t indent = .ok columns) : columns.flatMap Column.items = Item.ofText t := by
  unfold lineColumns at h
  split at h
  · next ht =>
    cases h
    rw [ht]
    rfl
  · obtain ⟨n, -, h⟩ := bind_eq_ok.1 h
    cases h
    exact List.flatMap_singleton ..

/-- So do glyphs that are cut into slices, -/
theorem items_slices {n : Nat} (hn : 0 < n) (gs : List Text) (indent : Int) :
    ((chunks n gs).map fun c => Column.single c.flatten indent).flatMap Column.items
      = Item.ofText gs.flatten := by
  rw [List.flatMap_map]
  show (chunks n gs).flatMap (fun c => Item.ofText c.flatten) = Item.ofText gs.flatten
  rw [Item.flatMap_ofText]
  conv => rhs; rw [← flatten_chunks hn gs]
  rw [List.flatten_flatten]
  rfl

/-- The columns of a paragraph: none without words, and else a first one and slices
of what is left. -/
theorem Paragraph.eq_of_columns {p : Paragraph} {columns : List Column}
    (h : p.columns s = .ok columns) :
    p.text = [] ∧ columns = []
      ∨ ∃ first n, 0 < n ∧ columns
        = .single ((glyphs p.text).take first).flatten p.firstIndent
          :: (chunks n ((glyphs p.text).drop first)).map fun c => .single c.flatten p.indent := by
  have htext := flatten_glyphs p.text
  unfold Paragraph.columns at h
  cases hg : glyphs p.text with
  | nil =>
    rw [hg] at h htext
    cases h
    exact Or.inl ⟨htext.symm, rfl⟩
  | cons g gs =>
    rw [hg] at h
    obtain ⟨first, -, h⟩ := bind_eq_ok.1 h
    cases hrest : (g :: gs).drop first with
    | nil =>
      -- nothing is left, so slices of any length will do
      simp only [hrest] at h
      cases h
      exact Or.inr ⟨first, 1, Nat.one_pos, by simp [hrest, chunks]⟩
    | cons a rest =>
      simp only [hrest] at h
      obtain ⟨n, hn, h⟩ := bind_eq_ok.1 h
      cases h
      exact Or.inr ⟨first, n, Settings.capacity_pos hn, by rw [hrest]⟩

/-- **and a paragraph**, whose first slice may have another indent. -/
theorem Paragraph.items_columns {p : Paragraph} {columns : List Column}
    (h : p.columns s = .ok columns) : columns.flatMap Column.items = Item.ofText p.text := by
  rcases Paragraph.eq_of_columns h with ⟨htext, rfl⟩ | ⟨first, n, hn, rfl⟩
  · rw [htext]
    rfl
  · -- what the first column takes and what it leaves
    conv => rhs; rw [← flatten_glyphs p.text, ← List.take_append_drop first (glyphs p.text),
      List.flatten_append, Item.ofText_append]
    rw [List.flatMap_cons, items_slices hn]
    rfl

/-! ## §3. Runs of glosses. -/

/-- The words of some sub-columns are those of the first and of the cells with
which it, and the others, were filled. -/
theorem text_fill {cells : List Cell} :
    ∀ {column : SubColumn} {room : Nat} {halves : List SubColumn},
      fill s column room cells = .ok halves →
        halves.flatMap (·.text) = column.text ++ cells.flatMap (·.glyph) := by
  -- induction on the cells, as they are filled in: each goes to the sub-column that
  -- is being filled or opens the next one
  induction cells with
  | nil =>
    intro column room halves h
    cases h
    rw [List.flatMap_singleton, List.flatMap_nil, List.append_nil]
  | cons c rest ih =>
    intro column room halves h
    unfold fill at h
    split at h
    · obtain ⟨n, -, h⟩ := bind_eq_ok.1 h
      obtain ⟨following, hfollowing, h⟩ := bind_eq_ok.1 h
      cases h
      rw [List.flatMap_cons, List.flatMap_cons, ih hfollowing]
    · rw [ih h, List.flatMap_cons, List.append_assoc]

/-- **Packed cells are read in their order**, whatever half they come to stand in. -/
theorem text_packCells {cells : List Cell} {halves : List SubColumn}
    (h : packCells s cells = .ok halves) :
    halves.flatMap (·.text) = cells.flatMap (·.glyph) := by
  cases cells with
  | nil =>
    cases h
    rfl
  | cons c rest =>
    obtain ⟨n, -, h⟩ := bind_eq_ok.1 h
    exact text_fill h

/-- The cells of a passage are its words. -/
theorem Passage.glyph_cells (q : Passage) : q.cells.flatMap (·.glyph) = q.text := by
  conv => rhs; rw [← flatten_glyphs q.text]
  unfold Passage.cells
  cases glyphs q.text with
  | nil => rfl
  | cons g gs =>
    show g ++ (gs.map fun g => (⟨g, q.indent, false⟩ : Cell)).flatMap (·.glyph) = (g :: gs).flatten
    rw [List.flatMap_map, List.flatten_cons, List.flatMap_id']

/-- A coherent gloss hands on all of its words. -/
theorem Gloss.text_passages {a : Gloss} (h : a.Coherent) :
    a.passages.flatMap (·.text) = a.text := by
  -- passages without words have none to lose
  have hdrop : ∀ l : List Passage,
      (l.filter (·.text ≠ [])).flatMap (·.text) = l.flatMap (·.text) := by
    intro l
    induction l with
    | nil => rfl
    | cons q rest ih =>
      by_cases hq : q.text = []
      · rw [List.filter_cons_of_neg (by simpa using hq), ih, List.flatMap_cons, hq, List.nil_append]
      · rw [List.filter_cons_of_pos (by simpa using hq), List.flatMap_cons, ih, List.flatMap_cons]
  unfold Gloss.passages
  rw [hdrop]
  split
  · exact List.flatMap_singleton ..
  · next hne =>
    rw [List.flatMap_map]
    exact h.resolve_left hne

/-- Pairing keeps the order of reading. -/
theorem items_pair : ∀ halves : List SubColumn,
    ((pair halves).map Column.dual).flatMap Column.items
      = Item.ofText (halves.flatMap (·.text))
  | [] => rfl
  | [right] => by
    show Item.ofText right.text ++ [] ++ [] = Item.ofText (right.text ++ [])
    rw [List.append_nil, List.append_nil, List.append_nil]
  | right :: left :: rest => by
    show Item.ofText right.text ++ Item.ofText left.text
        ++ ((pair rest).map Column.dual).flatMap Column.items = _
    rw [items_pair rest, ← Item.ofText_append, ← Item.ofText_append, List.flatMap_cons,
      List.flatMap_cons, List.append_assoc]

/-- **A run of glosses stands in its columns**, item by item. -/
theorem items_runColumns {run : List Gloss} {columns : List Column} (hrun : ∀ a ∈ run, a.Coherent)
    (h : runColumns s run = .ok columns) :
    columns.flatMap Column.items = run.flatMap fun a => Item.ofText a.text := by
  obtain ⟨halves, hpack, h⟩ := bind_eq_ok.1 h
  cases h
  have hcells : (stream run).flatMap (fun q => q.cells.flatMap (·.glyph))
      = run.flatMap fun a => a.text := by
    simp only [Passage.glyph_cells, stream, List.flatMap_assoc]
    exact List.flatMap_congr fun a ha => Gloss.text_passages (hrun a ha)
  rw [items_pair, text_packCells hpack, List.flatMap_assoc, hcells, Item.flatMap_ofText]

/-! ## §4. The layout. -/

/-- So does any stretch. -/
theorem Stretch.items_columns {r : Stretch} {columns : List Column}
    (hglosses : ∀ a, Block.gloss a ∈ r.blocks → a.Coherent) (h : r.columns s = .ok columns) :
    columns.flatMap Column.items = r.blocks.flatMap Block.items := by
  cases r with
  | run glosses =>
    show _ = (glosses.map Block.gloss).flatMap Block.items
    rw [List.flatMap_map]
    exact items_runColumns (fun a ha => hglosses a (List.mem_map_of_mem ha)) h
  | block b =>
    show _ = [b].flatMap Block.items
    rw [List.flatMap_singleton]
    cases b with
    | chapter title => cases h; rfl
    | newPage => cases h; rfl
    | stamp markup => cases h; rfl
    | text t indent => exact items_lineColumns h
    | entry level t => exact items_lineColumns h
    | paragraph p => exact Paragraph.items_columns h
    | gloss a =>
      have hrun : ∀ c ∈ [a], c.Coherent := by
        intro c hc
        rw [List.mem_singleton.1 hc]
        exact hglosses a List.mem_cons_self
      rw [items_runColumns hrun h, List.flatMap_singleton]
      rfl

/-- **A layout keeps the items of its blocks.** None is lost, none comes twice,
and none changes its place. -/
theorem items_layout {blocks : List Block} {columns : List Column}
    (hglosses : ∀ a, Block.gloss a ∈ blocks → a.Coherent) (h : layout s blocks = .ok columns) :
    columns.flatMap Column.items = blocks.flatMap Block.items := by
  obtain ⟨parts, hparts, h⟩ := bind_eq_ok.1 h
  cases h
  have hstretch : ∀ r ∈ stretches blocks, ∀ part, r.columns s = .ok part →
      part.flatMap Column.items = r.blocks.flatMap Block.items := by
    intro r hr part hpart
    refine Stretch.items_columns (fun a ha => hglosses a ?_) hpart
    rw [← flatMap_blocks_stretches blocks]
    exact List.mem_flatMap.2 ⟨r, hr, ha⟩
  calc parts.flatten.flatMap Column.items
      = parts.flatMap fun part => part.flatMap Column.items := by
        rw [← List.flatMap_id, List.flatMap_assoc]
        rfl
    _ = (stretches blocks).flatMap fun r => r.blocks.flatMap Block.items :=
        flatMap_of_mapM hparts hstretch
    _ = blocks.flatMap Block.items := by
        rw [← List.flatMap_assoc, flatMap_blocks_stretches]

end FolioGrid
