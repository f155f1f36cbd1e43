/-
  FolioGrid.Proofs.Layout.Room
  ────────────────────────────────
  **WHERE A BOOK DOES NOT FIT.**

  The layout never looks at an indent before it has a glyph to set there: the
  check stands in three loops, for a line of text, for a column of a paragraph
  and for a sub-column of a gloss.  Its failures can be told from the blocks
  alone all the same:

      Block.Crowded      — some glyph of the block has no place
      Block.indentsUsed  — the indents at which a block sets glyphs, in
                           reading order
      firstTight         — the first indent of a list that leaves no room

  Main result: `layout_error_iff_crowded`.  A layout fails exactly if a block
  is crowded, and the failure names the first indent in use that leaves no
  room.  An indent that no glyph uses makes no failure.

  One predicate carries the proof through the steps of a layout: `FailsAt s is
  x` says that `x` fails exactly if an indent of `is` is tight, and at the first
  of these.  It holds of `Settings.capacity` and is kept by sequencing.
-/
import FolioGrid.Layout.Basic
import FolioGrid.Proofs.Failure

namespace FolioGrid

open FolioGrid.Text

/-! ## §1. Indents without room. -/

/-- A block of which some glyph has no place on a grid of a width. -/
inductive Block.Crowded (width : Int) : Block → Prop where
  /-- A line of text whose indent takes the whole column. -/
  | text {t : Text} {indent : Int} (words : t ≠ []) (tight : width ≤ indent) :
      Crowded width (.text t indent)
  /-- An entry whose level takes the whole column. -/
  | entry {level : Int} {t : Text} (words : t ≠ []) (tight : width ≤ level) :
      Crowded width (.entry level t)
  /-- A paragraph whose first column has no room. -/
  | firstColumn {p : Paragraph} (words : 1 ≤ (glyphs p.text).length)
      (tight : width ≤ p.firstIndent) : Crowded width (.paragraph p)
  /-- A paragraph that does not end in its first column, and has no room below. -/
  | laterColumn {p : Paragraph} (words : 1 ≤ (glyphs p.text).length)
      (more : width - p.firstIndent < (glyphs p.text).length) (tight : width ≤ p.indent) :
      Crowded width (.paragraph p)
  /-- A gloss with a passage whose indent takes the whole column. -/
  | gloss {a : Gloss} {q : Passage} (passage : q ∈ a.passages) (tight : width ≤ q.indent) :
      Crowded width (.gloss a)

/-- The indents at which a paragraph sets glyphs: a second one is used only if
the first column does not hold all. -/
def Paragraph.indentsUsed (width : Int) (p : Paragraph) : List Int :=
  if glyphs p.text = [] then []
  else p.firstIndent ::
    if width - p.firstIndent < (glyphs p.text).length then [p.indent] else []

/-- The indents at which a block sets glyphs, in reading order. -/
def Block.indentsUsed (width : Int) : Block → List Int
  | .chapter _ | .newPage | .stamp _ => []
  | .text t indent => if t = [] then [] else [indent]
  | .entry level t => if t = [] then [] else [level]
  | .paragraph p => p.indentsUsed width
  | .gloss a => a.passages.map (·.indent)

/-- The first indent of a list that leaves no room in a column of a width. -/
def firstTight (width : Int) (indents : List Int) : Option Int :=
  indents.find? fun i => width ≤ i

/-- The first tight indent is looked for in the first indents before the others. -/
theorem firstTight_append (width : Int) (is js : List Int) :
    firstTight width (is ++ js) = (firstTight width is).or (firstTight width js) :=
  List.find?_append

theorem firstTight_cons_of_lt {width i : Int} (h : i < width) (is : List Int) :
    firstTight width (i :: is) = firstTight width is := by
  unfold firstTight
  rw [List.find?_cons_of_neg (by simpa using h)]

theorem firstTight_cons_of_le {width i : Int} (h : width ≤ i) (is : List Int) :
    firstTight width (i :: is) = some i := by
  unfold firstTight
  rw [List.find?_cons_of_pos (by simpa using h)]

/-- There is one exactly if some indent leaves no room. -/
theorem firstTight_isSome_iff {width : Int} {is : List Int} :
    (∃ i, firstTight width is = some i) ↔ ∃ i ∈ is, width ≤ i := by
  rw [← Option.isSome_iff_exists]
  unfold firstTight
  simp

/-- A block is crowded exactly if one of the indents that it uses is tight. -/
theorem Block.crowded_iff {width : Int} {b : Block} :
    b.Crowded width ↔ ∃ i ∈ b.indentsUsed width, width ≤ i := by
  constructor
  · intro h
    cases h with
    | text words tight => exact ⟨_, by simp [Block.indentsUsed, words], tight⟩
    | entry words tight => exact ⟨_, by simp [Block.indentsUsed, words], tight⟩
    | firstColumn words tight =>
      have hne := List.ne_nil_of_length_pos words
      exact ⟨_, by simp [Block.indentsUsed, Paragraph.indentsUsed, hne], tight⟩
    | laterColumn words more tight =>
      have hne := List.ne_nil_of_length_pos words
      exact ⟨_, by simp [Block.indentsUsed, Paragraph.indentsUsed, hne, more], tight⟩
    | gloss passage tight => exact ⟨_, List.mem_map_of_mem passage, tight⟩
  · rintro ⟨i, hi, tight⟩
    cases b with
    | chapter title => simp [Block.indentsUsed] at hi
    | newPage => simp [Block.indentsUsed] at hi
    | stamp markup => simp [Block.indentsUsed] at hi
    | text t indent =>
      obtain ⟨words, rfl⟩ : t ≠ [] ∧ i = indent := by simpa [Block.indentsUsed] using hi
      exact .text words tight
    | entry level t =>
      obtain ⟨words, rfl⟩ : t ≠ [] ∧ i = level := by simpa [Block.indentsUsed] using hi
      exact .entry words tight
    | paragraph p =>
      obtain ⟨hne, h⟩ : glyphs p.text ≠ [] ∧ (i = p.firstIndent
          ∨ width - p.firstIndent < (glyphs p.text).length ∧ i = p.indent) := by
        simpa [Block.indentsUsed, Paragraph.indentsUsed] using hi
      have words : 1 ≤ (glyphs p.text).length := List.length_pos_iff.2 hne
      rcases h with rfl | ⟨more, rfl⟩
      · exact .firstColumn words tight
      · exact .laterColumn words more tight
    | gloss a =>
      obtain ⟨q, passage, rfl⟩ := List.mem_map.1 hi
      exact .gloss passage tight

/-! ## §2. Failing at the first tight indent. -/

/-- A computation that fails exactly if one of some indents is tight, and then
at the first of these. -/
def FailsAt {α : Type} (s : Settings) (indents : List Int) : Except Failure α → Prop
  | .ok _ => firstTight s.width indents = none
  | .error failure =>
    ∃ i, firstTight s.width indents = some i ∧ failure = .noRoom i s.width

section

variable {α β : Type} {s : Settings} {is js : List Int}

theorem failsAt_pure (a : α) : FailsAt s [] (pure a : Except Failure α) := rfl

/-- Only the first tight indent counts. -/
theorem FailsAt.congr {x : Except Failure α}
    (h : firstTight s.width is = firstTight s.width js) (hx : FailsAt s is x) :
    FailsAt s js x := by
  unfold FailsAt at hx ⊢
  rw [← h]
  exact hx

/-- The indents of two computations in sequence are those of both. -/
theorem FailsAt.bind {x : Except Failure α} {f : α → Except Failure β} (hx : FailsAt s is x)
    (hf : ∀ a, x = .ok a → FailsAt s js (f a)) : FailsAt s (is ++ js) (x >>= f) := by
  cases x with
  | error failure =>
    -- the second computation is not reached, and its indents come later
    obtain ⟨i, hi, rfl⟩ := hx
    refine ⟨i, ?_, rfl⟩
    rw [firstTight_append, hi]
    rfl
  | ok a =>
    refine (hf a rfl).congr ?_
    rw [firstTight_append, show firstTight s.width is = none from hx]
    rfl

/-- What is done with a result afterwards makes no failure. -/
theorem FailsAt.map {x : Except Failure α} (hx : FailsAt s is x) (f : α → β) :
    FailsAt s is (x >>= fun a => pure (f a)) := by
  have h := hx.bind (f := fun a => pure (f a)) fun a _ => failsAt_pure (f a)
  rwa [List.append_nil] at h

/-- The indents of computations on the elements of a list come in its order. -/
theorem FailsAt.mapM {f : α → Except Failure β} {used : α → List Int}
    (h : ∀ a, FailsAt s (used a) (f a)) : ∀ l : List α, FailsAt s (l.flatMap used) (l.mapM f)
  | [] => failsAt_pure _
  | a :: l => by
    rw [List.mapM_cons, List.flatMap_cons]
    exact (h a).bind fun b _ => (FailsAt.mapM h l).map _

/-- **What fails at the first tight indent** names it, and nothing else. -/
theorem FailsAt.eq_error_iff {x : Except Failure α} (hx : FailsAt s is x) (failure : Failure) :
    x = .error failure ↔
      ∃ i, firstTight s.width is = some i ∧ failure = .noRoom i s.width := by
  cases x with
  | ok a =>
    have hnone : firstTight s.width is = none := hx
    simp [hnone]
  | error e =>
    obtain ⟨i, hi, rfl⟩ := hx
    simp only [hi, Except.error.injEq, Option.some.injEq, exists_eq_left']
    exact eq_comm

end

/-! ## §3. The steps of a layout. -/

variable (s : Settings)

/-- An indent that was found to have room is not tight. -/
theorem Settings.lt_of_capacity {s : Settings} {indent : Int} {n : Nat}
    (h : s.capacity indent = .ok n) : indent < s.width ∧ n = (s.width - indent).toNat := by
  unfold Settings.capacity Settings.roomAt at h
  split at h
  · cases h
  · cases h
    exact ⟨by omega, rfl⟩

/-- A column fails at its own indent, -/
theorem failsAt_capacity (indent : Int) : FailsAt s [indent] (s.capacity indent) := by
  unfold Settings.capacity Settings.roomAt
  split
  · exact ⟨indent, firstTight_cons_of_le (by omega) [], rfl⟩
  · exact firstTight_cons_of_lt (by omega) []

/-- and running text at its indent, unless it is empty. -/
theorem failsAt_lineColumns (t : Text) (indent : Int) :
    FailsAt s (if t = [] then [] else [indent]) (lineColumns s t indent) := by
  unfold lineColumns
  split
  · exact failsAt_pure _
  · exact (failsAt_capacity s indent).map _

/-- **A paragraph fails** at its first indent or at that of the columns below, if it has
any. -/
theorem Paragraph.failsAt_columns (p : Paragraph) :
    FailsAt s (p.indentsUsed s.width) (p.columns s) := by
  unfold Paragraph.columns Paragraph.indentsUsed
  cases glyphs p.text with
  | nil => exact failsAt_pure _
  | cons g gs =>
    rw [if_neg (List.cons_ne_nil g gs), ← List.singleton_append]
    refine (failsAt_capacity s p.firstIndent).bind ?_
    intro first hfirst
    obtain ⟨hroom, hn⟩ := Settings.lt_of_capacity hfirst
    -- the second indent is asked for exactly if glyphs are left over
    cases hrest : (g :: gs).drop first with
    | nil =>
      have hle := List.drop_eq_nil_iff.1 hrest
      rw [if_neg (show ¬ s.width - p.firstIndent < (g :: gs).length by omega)]
      exact failsAt_pure _
    | cons a rest =>
      have hlt : first < (g :: gs).length := by
        have hlen := congrArg List.length hrest
        rw [List.length_drop] at hlen
        have hpos : 0 < (a :: rest).length := Nat.succ_pos _
        omega
      rw [if_pos (show s.width - p.firstIndent < (g :: gs).length by omega)]
      exact (failsAt_capacity s p.indent).map _

/-- Filling sub-columns asks for the indent of every cell, unless it is that of
the sub-column which is being filled. -/
theorem failsAt_fill (cells : List Cell) :
    ∀ (column : SubColumn) (room : Nat), column.indent < s.width →
      FailsAt s (cells.map (·.indent)) (fill s column room cells) := by
  induction cells with
  | nil => intro column room _; exact failsAt_pure _
  | cons c rest ih =>
    intro column room hroom
    unfold fill
    split
    · -- a sub-column more, which is given room first
      rw [List.map_cons, ← List.singleton_append]
      refine (failsAt_capacity s c.indent).bind ?_
      intro n hn
      exact (ih ⟨c.glyph, c.indent⟩ (n - 1) (Settings.lt_of_capacity hn).1).map _
    · next hsame =>
      -- same indent as the sub-column, whose room has been found before
      have hc : c.indent = column.indent := by
        simp only [not_or, Decidable.not_not] at hsame
        exact hsame.2.2
      rw [← hc] at hroom
      exact (ih _ (room - 1) (hc ▸ hroom)).congr (firstTight_cons_of_lt hroom _).symm

/-- Cells are packed until one stands in a column without room. -/
theorem failsAt_packCells (cells : List Cell) :
    FailsAt s (cells.map (·.indent)) (packCells s cells) := by
  cases cells with
  | nil => exact failsAt_pure _
  | cons c rest =>
    rw [List.map_cons, ← List.singleton_append]
    refine (failsAt_capacity s c.indent).bind ?_
    intro n hn
    exact failsAt_fill s rest ⟨c.glyph, c.indent⟩ (n - 1) (Settings.lt_of_capacity hn).1

/-! ## §4. Passages and runs. -/

/-- Words have a glyph, and at the first one stands the break of their passage. -/
theorem Passage.exists_cells {q : Passage} (words : q.text ≠ []) :
    ∃ (g : Text) (gs : List Text),
      q.cells = ⟨g, q.indent, q.force⟩ :: gs.map fun g => ⟨g, q.indent, false⟩ := by
  obtain ⟨g, gs, hg⟩ := exists_glyphs_cons words
  unfold Passage.cells
  rw [hg]
  exact ⟨g, gs, rfl⟩

/-- All cells of a passage that has words stand at its indent. -/
theorem Passage.firstTight_cells {q : Passage} (words : q.text ≠ []) (is : List Int) :
    firstTight s.width (q.cells.map (·.indent) ++ is) = firstTight s.width (q.indent :: is) := by
  obtain ⟨g, gs, hq⟩ := Passage.exists_cells words
  have hcells : q.cells.map (·.indent) = q.indent :: gs.map fun _ => q.indent := by
    rw [hq, List.map_cons, List.map_map]
    rfl
  rw [hcells, List.cons_append]
  by_cases h : q.indent < s.width
  · -- none of the cells counts
    rw [firstTight_cons_of_lt h, firstTight_cons_of_lt h, firstTight_append]
    suffices hnone : firstTight s.width (gs.map fun _ => q.indent) = none by rw [hnone]; rfl
    unfold firstTight
    rw [List.find?_eq_none]
    intro i hi
    obtain ⟨_, _, rfl⟩ := List.mem_map.1 hi
    simpa using h
  · rw [firstTight_cons_of_le (by omega), firstTight_cons_of_le (by omega)]

/-- A passage has a cell, and all its cells have its indent. -/
theorem firstTight_flatMap_cells {passages : List Passage} (words : ∀ q ∈ passages, q.text ≠ []) :
    firstTight s.width ((passages.flatMap Passage.cells).map (·.indent))
      = firstTight s.width (passages.map (·.indent)) := by
  induction passages with
  | nil => rfl
  | cons q rest ih =>
    have hq := words q List.mem_cons_self
    have hrest := ih fun r hr => words r (List.mem_cons_of_mem q hr)
    rw [List.flatMap_cons, List.map_append, Passage.firstTight_cells s hq, List.map_cons]
    -- a tight passage hides all that come after it
    by_cases h : q.indent < s.width
    · rw [firstTight_cons_of_lt h, firstTight_cons_of_lt h, hrest]
    · rw [firstTight_cons_of_le (by omega), firstTight_cons_of_le (by omega)]

/-- A gloss hands on no passage without words. -/
theorem Gloss.text_ne_nil_of_mem_passages {a : Gloss} {q : Passage} (h : q ∈ a.passages) :
    q.text ≠ [] := by
  unfold Gloss.passages at h
  simpa using (List.mem_filter.1 h).2

/-- **A run of glosses fails** at the first indent of a passage without room. -/
theorem failsAt_runColumns (run : List Gloss) :
    FailsAt s (run.flatMap fun a => a.passages.map (·.indent)) (runColumns s run) := by
  have words : ∀ q ∈ stream run, q.text ≠ [] := by
    intro q hq
    obtain ⟨a, _, ha⟩ := List.mem_flatMap.1 hq
    exact Gloss.text_ne_nil_of_mem_passages ha
  have hpack : FailsAt s ((stream run).map (·.indent)) (pack s (stream run)) :=
    (failsAt_packCells s _).congr (firstTight_flatMap_cells s words)
  rw [stream, List.map_flatMap] at hpack
  exact hpack.map _

/-! ## §5. The layout. -/

/-- The blocks of what is laid out at once. -/
def Stretch.blocks : Stretch → List Block
  | .block b => [b]
  | .run glosses => glosses.map .gloss

theorem Stretch.flatMap_blocks_push (b : Block) (rest : List Stretch) :
    (Stretch.push b rest).flatMap Stretch.blocks = b :: rest.flatMap Stretch.blocks := by
  -- only a gloss looks at what comes next: another one, a run, or neither
  cases b with
  | gloss a =>
    rcases rest with _ | ⟨⟨c⟩ | ⟨glosses⟩, rest⟩ <;> rfl
  | _ => rfl

/-- Gathering glosses in runs leaves all blocks where they are. -/
theorem flatMap_blocks_stretches (blocks : List Block) :
    (stretches blocks).flatMap Stretch.blocks = blocks := by
  induction blocks with
  | nil => rfl
  | cons b rest ih =>
    show (Stretch.push b (stretches rest)).flatMap Stretch.blocks = b :: rest
    rw [Stretch.flatMap_blocks_push, ih]

/-- So any block by itself fails at the first of the indents that it uses, -/
theorem Block.failsAt_columns (b : Block) : FailsAt s (b.indentsUsed s.width) (b.columns s) := by
  cases b with
  | chapter title => exact failsAt_pure _
  | newPage => exact failsAt_pure _
  | stamp markup => exact failsAt_pure _
  | text t indent => exact failsAt_lineColumns s t indent
  | entry level t => exact failsAt_lineColumns s t level
  | paragraph p => exact p.failsAt_columns s
  | gloss a =>
    have h := failsAt_runColumns s [a]
    rwa [List.flatMap_singleton] at h

/-- and a stretch at the first of those of its blocks. -/
theorem Stretch.failsAt_columns (r : Stretch) :
    FailsAt s (r.blocks.flatMap (Block.indentsUsed s.width)) (r.columns s) := by
  cases r with
  | block b =>
    show FailsAt s ([b].flatMap _) (b.columns s)
    rw [List.flatMap_singleton]
    exact b.failsAt_columns s
  | run glosses =>
    show FailsAt s ((glosses.map Block.gloss).flatMap _) (runColumns s glosses)
    rw [List.flatMap_map]
    exact failsAt_runColumns s glosses

/-- A layout fails at the first tight indent that its blocks use. -/
theorem failsAt_layout (blocks : List Block) :
    FailsAt s (blocks.flatMap (Block.indentsUsed s.width)) (layout s blocks) := by
  -- stretches are laid out one by one, and their blocks are those of the book
  have h := (FailsAt.mapM (Stretch.failsAt_columns s) (stretches blocks)).map List.flatten
  rwa [← List.flatMap_assoc, flatMap_blocks_stretches] at h

/-- **A layout fails exactly where a glyph has no place, and says where.**
Some block is crowded if and only if there is a failure; and the failure names
the first indent in reading order that is used and tight. -/
theorem layout_error_iff_crowded (blocks : List Block) :
    ((∃ failure, layout s blocks = .error failure) ↔ ∃ b ∈ blocks, b.Crowded s.width)
      ∧ ∀ failure, layout s blocks = .error failure ↔
          ∃ indent,
            firstTight s.width (blocks.flatMap (Block.indentsUsed s.width)) = some indent
              ∧ failure = .noRoom indent s.width
              ∧ failure.message
                = utf8 "indent " ++ decimal indent ++ utf8 " leaves no room in a column of "
                  ++ decimal s.width ++ utf8 " characters" := by
  have hfails := (failsAt_layout s blocks).eq_error_iff
  constructor
  · -- some indent in use is tight exactly if a first one is
    simp only [Block.crowded_iff, hfails]
    constructor
    · rintro ⟨_, i, hi, -⟩
      obtain ⟨j, hj, tight⟩ := firstTight_isSome_iff.1 ⟨i, hi⟩
      obtain ⟨b, hb, hjb⟩ := List.mem_flatMap.1 hj
      exact ⟨b, hb, j, hjb, tight⟩
    · rintro ⟨b, hb, j, hjb, tight⟩
      obtain ⟨i, hi⟩ := firstTight_isSome_iff.2 ⟨j, List.mem_flatMap.2 ⟨b, hb, hjb⟩, tight⟩
      exact ⟨_, i, hi, rfl⟩
  · intro failure
    rw [hfails]
    constructor
    · rintro ⟨i, hi, rfl⟩
      exact ⟨i, hi, rfl, message_noRoom i s.width⟩
    · rintro ⟨i, hi, hfailure, -⟩
      exact ⟨i, hi, hfailure⟩

end FolioGrid
