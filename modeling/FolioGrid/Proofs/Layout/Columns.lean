/-
  FolioGrid.Proofs.Layout.Columns
  ────────────────────────────────
  **WHAT HOLDS OF ALL COLUMNS.**

  To show something of all columns of a layout, no loop of it has to be entered
  again.  Each kind of columns has one rule:

      single_of_mem_lineColumns       — a line of text
      Paragraph.single_of_mem_columns — a paragraph
      forall_mem_runColumns           — a run of glosses, glyph by glyph
      forall_mem_layout               — all blocks
-/
import FolioGrid.Proofs.Layout.Room

namespace FolioGrid

open FolioGrid.Text

variable {s : Settings} {columns : List Column}

/-! ## §1. Lines and paragraphs. -/

/-- A line of text has one column at most, at its indent and with room there. -/
theorem single_of_mem_lineColumns {t : Text} {indent : Int}
    (h : lineColumns s t indent = .ok columns) :
    ∀ c ∈ columns, c = .single t indent ∧ indent < s.width := by
  unfold lineColumns at h
  split at h
  · cases h
    simp
  · obtain ⟨n, hn, h⟩ := bind_eq_ok.1 h
    cases h
    intro c hc
    exact ⟨List.mem_singleton.1 hc, (Settings.lt_of_capacity hn).1⟩

/-- A chunk holds elements of its list. -/
theorem mem_of_mem_chunks {α : Type} {n : Nat} {l c : List α} (h : c ∈ chunks n l) :
    ∀ a ∈ c, a ∈ l := by
  induction n, l using chunks.induct with
  | case1 l => simp [chunks] at h
  | case2 n _ => simp [chunks] at h
  | case3 n b rest ih =>
    rw [chunks, List.mem_cons] at h
    intro a ha
    rcases h with rfl | h
    · rcases List.mem_cons.1 ha with rfl | ha
      · exact List.mem_cons_self
      · exact List.mem_cons_of_mem b (List.mem_of_mem_take ha)
    · exact List.mem_cons_of_mem b (List.mem_of_mem_drop (ih h a ha))

/-- A column of a paragraph holds glyphs of it, at one of its indents and with room
there. -/
theorem Paragraph.single_of_mem_columns {p : Paragraph} (h : p.columns s = .ok columns) :
    ∀ c ∈ columns, ∃ (gs : List Text) (i : Int), c = .single gs.flatten i
      ∧ (∀ g ∈ gs, g ∈ glyphs p.text)
      ∧ (i = p.firstIndent ∨ i = p.indent) ∧ i < s.width := by
  unfold Paragraph.columns at h
  split at h
  · cases h
    simp
  · next g gs hglyphs =>
    rw [hglyphs]
    obtain ⟨first, hfirst, h⟩ := bind_eq_ok.1 h
    have hroom := (Settings.lt_of_capacity hfirst).1
    dsimp only at h
    split at h
    · cases h
      intro c hc
      rw [List.mem_singleton.1 hc]
      exact ⟨_, _, rfl, fun _ => List.mem_of_mem_take, Or.inl rfl, hroom⟩
    · obtain ⟨n, hn, h⟩ := bind_eq_ok.1 h
      cases h
      intro c hc
      rcases List.mem_cons.1 hc with rfl | hc
      · exact ⟨_, _, rfl, fun _ => List.mem_of_mem_take, Or.inl rfl, hroom⟩
      · -- a later column is a chunk of the glyphs that are left
        obtain ⟨slice, hslice, rfl⟩ := List.mem_map.1 hc
        refine ⟨slice, _, rfl, fun k hk => ?_, Or.inr rfl, (Settings.lt_of_capacity hn).1⟩
        exact List.mem_of_mem_drop (mem_of_mem_chunks hslice k hk)

/-! ## §2. Runs of glosses. -/

/-- A cell of a passage holds a glyph of it, at its indent. -/
theorem Passage.of_mem_cells {q : Passage} :
    ∀ c ∈ q.cells, c.glyph ∈ glyphs q.text ∧ c.indent = q.indent := by
  unfold Passage.cells
  split
  · simp
  · next g gs hglyphs =>
    intro c hc
    rw [hglyphs]
    rcases List.mem_cons.1 hc with rfl | hc
    · exact ⟨List.mem_cons_self, rfl⟩
    · obtain ⟨k, hk, rfl⟩ := List.mem_map.1 hc
      exact ⟨List.mem_cons_of_mem g hk, rfl⟩

section

variable {Q : SubColumn → Prop}

/-- What holds of a sub-column when a cell opens it, if there is room, and when a glyph
is added to it, holds of all. -/
theorem forall_mem_fill {cells : List Cell}
    (hopens : ∀ c ∈ cells, c.indent < s.width → Q ⟨c.glyph, c.indent⟩)
    (hmore : ∀ c ∈ cells, ∀ column, Q column → Q { column with text := column.text ++ c.glyph }) :
    ∀ {column : SubColumn} {room : Nat} {halves : List SubColumn}, Q column →
      fill s column room cells = .ok halves → ∀ half ∈ halves, Q half := by
  -- each glyph goes to the sub-column that is being filled, or opens the next one
  induction cells with
  | nil =>
    intro column room halves hcolumn h
    cases h
    intro half hhalf
    rwa [List.mem_singleton.1 hhalf]
  | cons c rest ih =>
    intro column room halves hcolumn h
    rw [List.forall_mem_cons] at hopens hmore
    unfold fill at h
    split at h
    · obtain ⟨n, hn, h⟩ := bind_eq_ok.1 h
      obtain ⟨following, hfollowing, h⟩ := bind_eq_ok.1 h
      cases h
      intro half hhalf
      rcases List.mem_cons.1 hhalf with rfl | hhalf
      · exact hcolumn
      · exact ih hopens.2 hmore.2 (hopens.1 (Settings.lt_of_capacity hn).1) hfollowing half hhalf
    · exact ih hopens.2 hmore.2 (hmore.1 column hcolumn) h

theorem forall_mem_packCells {cells : List Cell} {halves : List SubColumn}
    (hopens : ∀ c ∈ cells, c.indent < s.width → Q ⟨c.glyph, c.indent⟩)
    (hmore : ∀ c ∈ cells, ∀ column, Q column → Q { column with text := column.text ++ c.glyph })
    (h : packCells s cells = .ok halves) : ∀ half ∈ halves, Q half := by
  cases cells with
  | nil =>
    cases h
    simp
  | cons c rest =>
    obtain ⟨n, hn, h⟩ := bind_eq_ok.1 h
    rw [List.forall_mem_cons] at hopens hmore
    exact forall_mem_fill hopens.2 hmore.2 (hopens.1 (Settings.lt_of_capacity hn).1) h

/-- A dual column is made of one sub-column or of two. -/
theorem forall_mem_pair {R : Column → Prop}
    (hone : ∀ right, Q right → R (.dual { indent := right.indent, right := right.text }))
    (htwo : ∀ right left, Q right → Q left → R (.dual (.ofHalves right left))) :
    ∀ {halves : List SubColumn}, (∀ half ∈ halves, Q half) → ∀ d ∈ pair halves, R (.dual d)
  | [], _ => by simp [pair]
  | [right], h => by
    intro d hd
    rw [List.mem_singleton.1 hd]
    exact hone right (h right List.mem_cons_self)
  | right :: left :: rest, h => by
    intro d hd
    rcases List.mem_cons.1 hd with rfl | hd
    · exact htwo right left (h right (by simp)) (h left (by simp))
    · exact forall_mem_pair hone htwo (fun half hhalf => h half (by simp [hhalf])) d hd

/-- **The columns of a run are dual**, and made of sub-columns that are filled with the
cells of its passages. -/
theorem forall_mem_runColumns {R : Column → Prop} {run : List Gloss}
    (hopens : ∀ a ∈ run, ∀ q ∈ a.passages, ∀ c ∈ q.cells,
      c.indent < s.width → Q ⟨c.glyph, c.indent⟩)
    (hmore : ∀ a ∈ run, ∀ q ∈ a.passages, ∀ c ∈ q.cells,
      ∀ column, Q column → Q { column with text := column.text ++ c.glyph })
    (hone : ∀ right, Q right → R (.dual { indent := right.indent, right := right.text }))
    (htwo : ∀ right left, Q right → Q left → R (.dual (.ofHalves right left)))
    (h : runColumns s run = .ok columns) : ∀ c ∈ columns, R c := by
  obtain ⟨halves, hpack, h⟩ := bind_eq_ok.1 h
  cases h
  have hhalves : ∀ half ∈ halves, Q half := by
    refine forall_mem_packCells ?_ ?_ hpack
    · intro c hc
      obtain ⟨q, hq, hcell⟩ := List.mem_flatMap.1 hc
      obtain ⟨a, ha, hpassage⟩ := List.mem_flatMap.1 hq
      exact hopens a ha q hpassage c hcell
    · intro c hc
      obtain ⟨q, hq, hcell⟩ := List.mem_flatMap.1 hc
      obtain ⟨a, ha, hpassage⟩ := List.mem_flatMap.1 hq
      exact hmore a ha q hpassage c hcell
  intro c hc
  obtain ⟨d, hd, rfl⟩ := List.mem_map.1 hc
  exact forall_mem_pair hone htwo hhalves d hd

end

/-! ## §3. The layout. -/

/-- **What holds of the columns of each block**, and of those of glosses that follow each
other, holds of a whole layout. -/
theorem forall_mem_layout {q : Column → Prop} {blocks : List Block}
    (hblock : ∀ b ∈ blocks, ∀ {cs}, b.columns s = .ok cs → ∀ c ∈ cs, q c)
    (hrun : ∀ {run : List Gloss}, (∀ a ∈ run, Block.gloss a ∈ blocks) →
      ∀ {cs}, runColumns s run = .ok cs → ∀ c ∈ cs, q c)
    (h : layout s blocks = .ok columns) : ∀ c ∈ columns, q c := by
  obtain ⟨parts, hparts, h⟩ := bind_eq_ok.1 h
  cases h
  refine forall_mem_flatten_of_mapM hparts ?_
  intro r hr part hpart
  have hblocks : ∀ b ∈ r.blocks, b ∈ blocks := by
    intro b hb
    rw [← flatMap_blocks_stretches blocks]
    exact List.mem_flatMap.2 ⟨r, hr, hb⟩
  cases r with
  | block b => exact hblock b (hblocks b List.mem_cons_self) hpart
  | run glosses => exact hrun (fun a ha => hblocks _ (List.mem_map_of_mem ha)) hpart

end FolioGrid
