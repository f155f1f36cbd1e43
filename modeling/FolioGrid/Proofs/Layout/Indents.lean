/-
  FolioGrid.Proofs.Layout.Indents
  ────────────────────────────────
  **WHERE COLUMNS STAND.**

  A column stands at an indent of one of its blocks, and only where there is room
  (`stands_of_mem_layout`).

  The layout does sums with indents.  On a machine these are sums of words of a
  fixed size, so each of them has a checked form that gives nothing where the
  result is no such word (`word?`):

      Gloss.passages?     — an indent and the distance of a segment from it
      Settings.capacity?  — the width of a column and an indent
-/
import FolioGrid.Proofs.Layout.Columns

namespace FolioGrid

open FolioGrid.Text

/-! ## §1. Indents. -/

/-- The indents of a block. -/
def Block.indents : Block → List Int
  | .chapter _ | .newPage | .stamp _ => []
  | .text _ indent => [indent]
  | .entry level _ => [level]
  | .paragraph p => [p.firstIndent, p.indent]
  | .gloss a => a.passages.map (·.indent)

/-- The indents of a column. -/
def Column.indents : Column → List Int
  | .chapter _ | .newPage | .stamp _ => []
  | .single _ indent => [indent]
  | .dual d => d.indent :: (d.rightIndent.toList ++ d.leftIndent.toList)

/-- An indent of which something holds, with room below it. -/
def Stands (P : Int → Prop) (s : Settings) (i : Int) : Prop := P i ∧ i < s.width

variable {P : Int → Prop} {s : Settings} {columns : List Column}

/-! ## §2. Columns. -/

/-- A dual column has the indents of its halves and no others. -/
theorem indents_ofHalves (right left : SubColumn) :
    (Column.dual (.ofHalves right left)).indents ⊆ [right.indent, left.indent] := by
  unfold DualColumn.ofHalves Column.indents
  dsimp only
  split
  · simp
  · simp

/-- The columns of a run stand at indents of its glosses, -/
theorem stands_of_mem_runColumns {run : List Gloss}
    (hrun : ∀ a ∈ run, ∀ i ∈ (Block.gloss a).indents, P i) (h : runColumns s run = .ok columns) :
    ∀ c ∈ columns, ∀ i ∈ c.indents, Stands P s i := by
  refine forall_mem_runColumns (Q := fun half => Stands P s half.indent) ?_ ?_ ?_ ?_ h
  · intro a ha q hq c hc hroom
    refine ⟨?_, hroom⟩
    rw [(Passage.of_mem_cells c hc).2]
    exact hrun a ha _ (List.mem_map_of_mem hq)
  · -- a glyph more leaves a sub-column where it is
    exact fun _ _ _ _ _ _ _ hcolumn => hcolumn
  · intro right hright i hi
    rwa [List.mem_singleton.1 (show i ∈ [right.indent] from hi)]
  · intro right left hright hleft i hi
    rcases List.mem_cons.1 (indents_ofHalves right left hi) with rfl | hi
    · exact hright
    · rwa [List.mem_singleton.1 hi]

/-- and those of a block at indents of the block. -/
theorem Block.stands_of_mem_columns {b : Block} (hb : ∀ i ∈ b.indents, P i)
    (h : b.columns s = .ok columns) : ∀ c ∈ columns, ∀ i ∈ c.indents, Stands P s i := by
  have none : ∀ {c : Column}, c.indents = [] → ∀ c' ∈ [c], ∀ i ∈ c'.indents, Stands P s i := by
    intro c hc c' hc' i hi
    rw [List.mem_singleton.1 hc', hc] at hi
    cases hi
  have line : ∀ {t : Text} {indent : Int}, P indent → lineColumns s t indent = .ok columns →
      ∀ c ∈ columns, ∀ i ∈ c.indents, Stands P s i := by
    intro t indent hindent h c hc i hi
    obtain ⟨rfl, hroom⟩ := single_of_mem_lineColumns h c hc
    rw [List.mem_singleton.1 hi]
    exact ⟨hindent, hroom⟩
  cases b with
  | chapter title =>
    cases h
    exact none rfl
  | newPage =>
    cases h
    exact none rfl
  | stamp markup =>
    cases h
    exact none rfl
  | text t indent => exact line (hb indent List.mem_cons_self) h
  | entry level t => exact line (hb level List.mem_cons_self) h
  | paragraph p =>
    intro c hc i hi
    obtain ⟨gs, i', rfl, -, hindent, hroom⟩ := Paragraph.single_of_mem_columns h c hc
    rw [List.mem_singleton.1 hi]
    exact ⟨hb i' (by simpa [Block.indents] using hindent), hroom⟩
  | gloss a =>
    refine stands_of_mem_runColumns ?_ h
    intro a' ha'
    rwa [List.mem_singleton.1 ha']

/-- **Columns stand where their blocks do, and where there is room.** -/
theorem stands_of_mem_layout {blocks : List Block} (hblocks : ∀ b ∈ blocks, ∀ i ∈ b.indents, P i)
    (h : layout s blocks = .ok columns) : ∀ c ∈ columns, ∀ i ∈ c.indents, Stands P s i := by
  refine forall_mem_layout ?_ ?_ h
  · intro b hb cs
    exact Block.stands_of_mem_columns (hblocks b hb)
  · intro run hrun cs
    exact stands_of_mem_runColumns fun a ha => hblocks _ (hrun a ha)

/-! ## §3. Machine words. -/

/-- The numbers that a signed word of 32 bits holds. -/
def Fits (i : Int) : Prop := -2147483648 ≤ i ∧ i ≤ 2147483647

instance (i : Int) : Decidable (Fits i) := inferInstanceAs (Decidable (_ ∧ _))

/-- A number, if it is a machine word. -/
def word? (i : Int) : Option Int := if Fits i then some i else none

theorem word?_eq_some {i : Int} (h : Fits i) : word? i = some i := if_pos h

/-- The passages of a gloss, if no sum leaves the machine words. -/
def Gloss.passages? (a : Gloss) : Option (List Passage) := do
  let all ←
    if a.segments = [] then pure [⟨a.text, a.indent, false⟩]
    else a.segments.mapM fun s => do
      let indent ← word? (a.indent + s.delta)
      pure ⟨s.text, indent, s.force⟩
  pure (all.filter (·.text ≠ []))

/-- If each sum is a machine word, passages are made with the checks as they are without. -/
theorem Gloss.passages?_eq {a : Gloss} (h : ∀ s ∈ a.segments, Fits (a.indent + s.delta)) :
    a.passages? = some a.passages := by
  have hsums : a.segments.mapM (fun s => do
        let indent ← word? (a.indent + s.delta)
        pure (⟨s.text, indent, s.force⟩ : Passage))
      = some (a.segments.map fun s => ⟨s.text, a.indent + s.delta, s.force⟩) := by
    generalize a.segments = segments at h
    induction segments with
    | nil => rfl
    | cons first rest ih =>
      obtain ⟨hfirst, hrest⟩ := List.forall_mem_cons.1 h
      rw [List.mapM_cons, word?_eq_some hfirst, ih hrest]
      rfl
  unfold Gloss.passages? Gloss.passages
  rw [hsums]
  split
  · rfl
  · rfl

/-- How many glyphs fit below an indent, if the difference is a machine word. -/
def Settings.capacity? (s : Settings) (indent : Int) : Option (Except Failure Nat) := do
  let room ← word? (s.width - indent)
  pure (if room ≤ 0 then .error (.noRoom indent s.width) else .ok room.toNat)

/-- So is the capacity of a column, if the difference is one. -/
theorem Settings.capacity?_eq {indent : Int} (h : Fits (s.width - indent)) :
    s.capacity? indent = some (s.capacity indent) := by
  unfold Settings.capacity? Settings.capacity Settings.roomAt
  rw [word?_eq_some h]
  rfl

end FolioGrid
