/-
  FolioGrid.Proofs.Dialect.Breaks
  ────────────────────────────────
  **BREAKS INSIDE A GLOSS.**

  A command that raises words begins a new sub-column.  On the grid a forced
  break does what it says: the glyphs above it are packed by themselves, and so
  are those below it (`pack_append_force`).  A gloss takes its breaks there as
  they were read, with one exception: of a gloss that is one piece, which neither
  rises nor sinks, the break in front is forgotten.

  Main result: `passages_of_readCommand`.
-/
import FolioGrid.Proofs.Dialect.Glosses

namespace FolioGrid

open FolioGrid.Text FolioGrid.Markup

/-! ## §1. Breaks on the grid. -/

variable {s : Settings}

/-- A sub-column is filled up to a cell that has to open one, and no further. -/
theorem fill_append_opens {c : Cell} (hc : c.opens = true) (above below : List Cell) :
    ∀ (column : SubColumn) (room : Nat),
      fill s column room (above ++ c :: below) = (do
        let front ← fill s column room above
        let back ← packCells s (c :: below)
        pure (front ++ back)) := by
  -- induction on the cells above, each of which is filled in or opens a sub-column
  induction above with
  | nil =>
    intro column room
    have hopens : room = 0 ∨ c.opens ∨ c.indent ≠ column.indent := Or.inr (Or.inl hc)
    rw [List.nil_append, show fill s column room [] = pure [column] from rfl]
    conv_lhs => rw [fill, if_pos hopens]
    simp [packCells]
  | cons a above ih =>
    intro column room
    rw [List.cons_append, fill, fill]
    split
    · simp [ih]
    · exact ih _ _

theorem packCells_append_opens {c : Cell} (hc : c.opens = true) (above below : List Cell) :
    packCells s (above ++ c :: below) = (do
      let front ← packCells s above
      let back ← packCells s (c :: below)
      pure (front ++ back)) := by
  cases above with
  | nil => simp [packCells]
  | cons a above =>
    rw [List.cons_append, packCells, packCells]
    simp [fill_append_opens hc]

/-- **A forced break parts what is packed.** -/
theorem pack_append_force {q : Passage} (hforce : q.force = true) (hq : q.text ≠ [])
    (above below : List Passage) :
    pack s (above ++ q :: below) = (do
      let front ← pack s above
      let back ← pack s (q :: below)
      pure (front ++ back)) := by
  obtain ⟨g, gs, hcells⟩ := Passage.exists_cells hq
  unfold pack
  rw [List.flatMap_append, List.flatMap_cons, hcells]
  exact packCells_append_opens hforce _ _

/-! ## §2. Breaks of a gloss. -/

/-- A segment of a gloss at an indent, as it is packed. -/
def Segment.passage (indent : Int) (g : Segment) : Passage := ⟨g.text, indent + g.delta, g.force⟩

namespace Catalogue

variable {indent : Int} {g : Segment} {kept : List Segment} {a : Gloss}

/-- The segments of a gloss whose command stands in the first of some lines, as they
go onto the grid. -/
def readSegments (command : Text) (indent : Int) (unwrap : Bool) (lines : List Text) :
    List Segment :=
  let content := (collect command lines).content
  cleanSegments false
    (Elevation.expand (if unwrap then unwrapStyles content else content) indent).value

/-- No segment without words goes onto the grid. -/
theorem text_ne_nil_of_mem_cleanSegments {carried : Bool} {segments : List Segment}
    (hg : g ∈ cleanSegments carried segments) : g.text ≠ [] := by
  obtain ⟨-, -, -, hwords, -⟩ := exists_of_mem_cleanSegments hg
  exact hwords

theorem gloss?_eq_none_iff : gloss? indent kept = none ↔ kept = [] := by
  cases kept with
  | nil => exact ⟨fun _ => rfl, fun _ => rfl⟩
  | cons g rest => exact ⟨nofun, nofun⟩

/-- A piece at the gloss's own indent that begins with a break is packed without it. -/
theorem passages_of_one_piece (h : gloss? indent [⟨g.text, 0, g.force⟩] = some a)
    (words : g.text ≠ []) : a.passages = [⟨g.text, indent, false⟩] := by
  cases h
  simp [Gloss.passages, words]

/-- All other segments are packed as they are. -/
theorem passages_of_gloss? (h : gloss? indent kept = some a)
    (words : ∀ g ∈ kept, g.text ≠ []) (hbreak : ∀ t, kept ≠ [⟨t, 0, true⟩]) :
    a.passages = kept.map (Segment.passage indent) := by
  cases kept with
  | nil => cases h
  | cons g rest =>
    by_cases hone : rest = [] ∧ g.delta = 0
    · obtain ⟨t, delta, force⟩ := g
      obtain ⟨rfl, rfl⟩ := hone
      -- without a break in front, its one passage is that of the text
      cases force with
      | true => exact absurd rfl (hbreak t)
      | false =>
        rw [passages_of_one_piece h (words _ List.mem_cons_self)]
        simp [Segment.passage]
    · cases h
      have hsegments : (if rest = [] ∧ g.delta = 0 then [] else g :: rest) = g :: rest :=
        if_neg hone
      unfold Gloss.passages
      simp only [hsegments]
      rw [if_neg (List.cons_ne_nil g rest)]
      refine List.filter_eq_self.2 ?_
      intro q hq
      obtain ⟨g', hg', rfl⟩ := List.mem_map.1 hq
      simpa using words g' hg'

/-- In a run of glosses a break stands where its segment does. -/
theorem pack_stream_of_passages (h : a.passages = kept.map (Segment.passage indent))
    (words : ∀ g ∈ kept, g.text ≠ []) {above below : List Segment}
    (hsplit : kept = above ++ g :: below) (hforce : g.force = true) (before after : List Gloss) :
    pack s (stream (before ++ a :: after)) = (do
      let front ← pack s (stream before ++ above.map (Segment.passage indent))
      let back ← pack s ((g :: below).map (Segment.passage indent) ++ stream after)
      pure (front ++ back)) := by
  have hrun : stream (before ++ a :: after)
      = (stream before ++ above.map (Segment.passage indent))
        ++ g.passage indent :: (below.map (Segment.passage indent) ++ stream after) := by
    simp [stream, h, hsplit]
  have hg : g ∈ kept := by simp [hsplit]
  rw [hrun]
  exact pack_append_force hforce (words g hg) _ _

/-- **The breaks of a gloss.**  A gloss or an editor's note gives no block exactly if
no words are left of it.  Else its block is packed passage by passage as its segments
say, each of those with a break in a new sub-column, whatever stands in front of the
gloss or behind it: unless it is one piece at the indent itself that begins with a
break, which is forgotten. -/
theorem passages_of_readCommand {name : String} {indent : Int} {unwrap : Bool}
    (hname : (name, indent, unwrap) ∈ [("注", glossIndent, true), ("按", noteIndent, false)])
    (line : Text) (lines : List Text) :
    ∃ r, dialect.readCommand (utf8 name) line lines = some r ∧
      ∀ kept, readSegments (command name) indent unwrap lines = kept →
        (r.blocks = [] ↔ kept = [])
          ∧ (kept ≠ [] → ∃ a, r.blocks = [.gloss a]
            ∧ (∀ t, kept = [⟨t, 0, true⟩] → stream [a] = [⟨t, indent, false⟩])
            ∧ ((∀ t, kept ≠ [⟨t, 0, true⟩]) →
              stream [a] = kept.map (Segment.passage indent)
                ∧ ∀ above g below, kept = above ++ g :: below → g.force = true →
                  ∀ (s : Settings) (before after : List Gloss),
                    pack s (stream (before ++ a :: after)) = (do
                      let front ← pack s (stream before ++ above.map (Segment.passage indent))
                      let back ← pack s ((g :: below).map (Segment.passage indent) ++ stream after)
                      pure (front ++ back)))) := by
  refine ⟨readGloss (command name) indent unwrap lines, ?_, ?_⟩
  · rcases List.mem_cons.1 hname with hname | hname
    · cases hname
      rfl
    · cases List.mem_singleton.1 hname
      rfl
  · intro kept hkept
    have hblocks : (readGloss (command name) indent unwrap lines).blocks
        = (gloss? indent kept).toList.map .gloss := by
      rw [← hkept]
      rfl
    have words : ∀ g ∈ kept, g.text ≠ [] := by
      intro g hg
      rw [← hkept] at hg
      exact text_ne_nil_of_mem_cleanSegments hg
    constructor
    · have hnone : gloss? indent kept = none ↔ kept = [] := gloss?_eq_none_iff
      rw [hblocks, ← hnone]
      simp
    · intro hne
      obtain ⟨a, ha⟩ : ∃ a, gloss? indent kept = some a :=
        Option.ne_none_iff_exists'.1 (mt gloss?_eq_none_iff.1 hne)
      have hstream : stream [a] = a.passages := List.flatMap_singleton ..
      refine ⟨a, by rw [hblocks, ha]; rfl, ?_, ?_⟩
      · rintro t rfl
        rw [hstream]
        exact passages_of_one_piece (g := ⟨t, 0, true⟩) ha (words _ List.mem_cons_self)
      · intro hbreak
        have hpassages := passages_of_gloss? ha words hbreak
        refine ⟨by rw [hstream, hpassages], ?_⟩
        intro above g below hsplit hforce s before after
        exact pack_stream_of_passages hpassages words hsplit hforce before after

/-- A note with a break between its words. -/
def partedNote : List Text := [utf8 "\\按\x7b經\\\\史\x7d"]

theorem passages_of_partedNote :
    ∃ r a, dialect.readCommand (utf8 "按") [] partedNote = some r ∧ r.blocks = [.gloss a]
      ∧ stream [a] = [⟨utf8 "經", 4, false⟩, ⟨utf8 "史", 4, true⟩]
      ∧ ∀ s : Settings, pack s (stream [a]) = (do
        let front ← pack s [⟨utf8 "經", 4, false⟩]
        let back ← pack s [⟨utf8 "史", 4, true⟩]
        pure (front ++ back)) := by
  have hkept : readSegments (command "按") noteIndent false partedNote
      = [⟨utf8 "經", 0, false⟩, ⟨utf8 "史", 0, true⟩] := by decide +kernel
  obtain ⟨r, hread, hr⟩ := passages_of_readCommand
    (by decide : ("按", noteIndent, false) ∈ [("注", glossIndent, true), ("按", noteIndent, false)])
    [] partedNote
  obtain ⟨-, hsome⟩ := hr _ hkept
  obtain ⟨a, hblocks, -, hkeeps⟩ := hsome (by simp)
  obtain ⟨hstream, hpack⟩ := hkeeps (by simp)
  exact ⟨r, a, hread, hblocks, hstream, fun s => hpack [_] _ [] rfl rfl s [] []⟩

/-- A gloss that begins with a break. -/
def brokenGloss : List Text := [utf8 "\\注\x7b\\\\乙\x7d"]

/-- Its break is forgotten, so it does not begin a sub-column behind another gloss. -/
theorem passages_of_brokenGloss :
    (collect (command "注") brokenGloss).closed = true
      ∧ readSegments (command "注") glossIndent true brokenGloss = [⟨utf8 "乙", 0, true⟩]
      ∧ ∃ r a, dialect.readCommand (utf8 "注") [] brokenGloss = some r ∧ r.blocks = [.gloss a]
        ∧ stream [a] ≠ [⟨utf8 "乙", glossIndent, true⟩]
        ∧ pack .standard (stream [{ text := utf8 "甲", indent := glossIndent }, a])
          = .ok [⟨utf8 "甲乙", glossIndent⟩] := by
  refine ⟨by decide +kernel, by decide +kernel, ?_⟩
  refine ⟨readGloss (command "注") glossIndent true brokenGloss,
    { text := utf8 "乙", indent := glossIndent }, rfl, by decide +kernel, by decide +kernel, ?_⟩
  decide +kernel

end Catalogue

end FolioGrid
