/-
  FolioGrid.Proofs.Layout.Words
  ────────────────────────────────
  **THE WORDS OF THE GRID.**

  What a column says was said by a block, glyph by glyph.  So if the words of
  all blocks are made of characters of a kind, those of the columns are as well;
  and seals pass as they are (`says_of_mem_layout`).
-/
import FolioGrid.Proofs.Layout.Columns
import FolioGrid.Proofs.Text.Glyphs

namespace FolioGrid

open FolioGrid.Text

/-! ## §1. Words. -/

/-- The texts of a block that are words; the segments of a gloss have their own. -/
def Block.words : Block → List Text
  | .chapter title => [title]
  | .newPage => []
  | .stamp _ => []
  | .text t _ => [t]
  | .entry _ t => [t]
  | .paragraph p => [p.text]
  | .gloss a => a.text :: a.segments.map (·.text)

/-- The texts of a block that are markup. -/
def Block.markup : Block → List Text
  | .stamp markup => [markup]
  | _ => []

/-- The texts of a column that are words. -/
def Column.words : Column → List Text
  | .chapter title => [title]
  | .newPage => []
  | .stamp _ => []
  | .single t _ => [t]
  | .dual d => [d.right, d.left]

/-- The texts of a column that are markup. -/
def Column.markup : Column → List Text
  | .stamp markup => [markup]
  | _ => []

/-- A block whose words are made of characters of a kind, and of whose markup
something holds. -/
structure Block.Says (P : Char → Prop) (Q : Text → Prop) (b : Block) : Prop where
  /-- Its words. -/
  words : ∀ t ∈ b.words, MadeOf P t
  /-- Its markup. -/
  markup : ∀ m ∈ b.markup, Q m

/-- The same of a column. -/
structure Column.Says (P : Char → Prop) (Q : Text → Prop) (c : Column) : Prop where
  /-- Its words. -/
  words : ∀ t ∈ c.words, MadeOf P t
  /-- Its markup. -/
  markup : ∀ m ∈ c.markup, Q m

variable {P : Char → Prop} {Q : Text → Prop} {s : Settings} {columns : List Column}

/-- A block that is one text. -/
theorem Block.says_of_words_eq {b : Block} {t : Text} (ht : MadeOf P t) (hwords : b.words = [t])
    (hmarkup : b.markup = []) : b.Says P Q where
  words := by
    intro u hu
    rw [hwords, List.mem_singleton] at hu
    rwa [hu]
  markup := by
    intro m hm
    rw [hmarkup] at hm
    cases hm

theorem Column.says_single {t : Text} (h : MadeOf P t) (indent : Int) :
    (Column.single t indent).Says P Q where
  words := by
    intro u hu
    rwa [List.mem_singleton.1 hu]
  markup := by
    intro m hm
    cases hm

theorem Column.says_dual {d : DualColumn} (hright : MadeOf P d.right) (hleft : MadeOf P d.left) :
    (Column.dual d).Says P Q where
  words := by
    intro u hu
    rcases List.mem_cons.1 hu with rfl | hu
    · exact hright
    · rwa [List.mem_singleton.1 hu]
  markup := by
    intro m hm
    cases hm

/-! ## §2. Lines and paragraphs. -/

/-- Running text is handed on to its columns as it is. -/
theorem says_of_mem_lineColumns {t : Text} {indent : Int} (ht : MadeOf P t)
    (h : lineColumns s t indent = .ok columns) : ∀ c ∈ columns, c.Says P Q := by
  intro c hc
  obtain ⟨rfl, -⟩ := single_of_mem_lineColumns h c hc
  exact Column.says_single ht indent

/-- **A paragraph is cut between glyphs**, so its columns are made of its characters. -/
theorem Paragraph.says_of_mem_columns {p : Paragraph} (hp : MadeOf P p.text)
    (h : p.columns s = .ok columns) : ∀ c ∈ columns, c.Says P Q := by
  intro c hc
  obtain ⟨gs, i, rfl, hgs, -⟩ := Paragraph.single_of_mem_columns h c hc
  exact Column.says_single (MadeOf.flatten fun g hg => hp.of_mem_glyphs g (hgs g hg)) i

/-! ## §3. Runs of glosses. -/

/-- The passages of a gloss are its words. -/
theorem Gloss.madeOf_passages {a : Gloss} (ha : ∀ t ∈ (Block.gloss a).words, MadeOf P t) :
    ∀ q ∈ a.passages, MadeOf P q.text := by
  intro q hq
  have hall := (List.mem_filter.1 hq).1
  split at hall
  · rw [List.mem_singleton.1 hall]
    exact ha _ List.mem_cons_self
  · obtain ⟨segment, hsegment, rfl⟩ := List.mem_map.1 hall
    exact ha _ (List.mem_cons_of_mem _ (List.mem_map_of_mem hsegment))

/-- So the halves of its columns are made of their characters. -/
theorem says_of_mem_runColumns {run : List Gloss}
    (hrun : ∀ a ∈ run, ∀ t ∈ (Block.gloss a).words, MadeOf P t)
    (h : runColumns s run = .ok columns) : ∀ c ∈ columns, c.Says P Q := by
  have hcells : ∀ a ∈ run, ∀ q ∈ a.passages, ∀ c ∈ q.cells, MadeOf P c.glyph := by
    intro a ha q hq c hc
    have hpassage := Gloss.madeOf_passages (hrun a ha) q hq
    exact hpassage.of_mem_glyphs _ (Passage.of_mem_cells c hc).1
  refine forall_mem_runColumns (Q := fun half => MadeOf P half.text) ?_ ?_ ?_ ?_ h
  · exact fun a ha q hq c hc _ => hcells a ha q hq c hc
  · exact fun a ha q hq c hc column hcolumn => hcolumn.append (hcells a ha q hq c hc)
  · exact fun right hright => Column.says_dual hright .nil
  · exact fun right left hright hleft => Column.says_dual hright hleft

/-! ## §4. The layout. -/

/-- **What a block says, its columns say.** -/
theorem Block.says_of_mem_columns {b : Block} (hb : b.Says P Q) (h : b.columns s = .ok columns) :
    ∀ c ∈ columns, c.Says P Q := by
  have same : ∀ {c : Column}, c.words = b.words → c.markup = b.markup →
      ∀ c' ∈ [c], c'.Says P Q := by
    intro c hwords hmarkup c' hc'
    rw [List.mem_singleton.1 hc']
    exact ⟨hwords ▸ hb.words, hmarkup ▸ hb.markup⟩
  cases b with
  | chapter title =>
    cases h
    exact same rfl rfl
  | newPage =>
    cases h
    exact same rfl rfl
  | stamp markup =>
    cases h
    exact same rfl rfl
  | text t indent => exact says_of_mem_lineColumns (hb.words t List.mem_cons_self) h
  | entry level t => exact says_of_mem_lineColumns (hb.words t List.mem_cons_self) h
  | paragraph p => exact Paragraph.says_of_mem_columns (hb.words p.text List.mem_cons_self) h
  | gloss a =>
    refine says_of_mem_runColumns ?_ h
    intro a' ha'
    rw [List.mem_singleton.1 ha']
    exact hb.words

/-- **The grid says what the blocks say**, in characters of the same kind. -/
theorem says_of_mem_layout {blocks : List Block} (hblocks : ∀ b ∈ blocks, b.Says P Q)
    (h : layout s blocks = .ok columns) : ∀ c ∈ columns, c.Says P Q := by
  refine forall_mem_layout ?_ ?_ h
  · intro b hb cs
    exact Block.says_of_mem_columns (hblocks b hb)
  · intro run hrun cs
    exact says_of_mem_runColumns fun a ha => (hblocks _ (hrun a ha)).words

end FolioGrid
