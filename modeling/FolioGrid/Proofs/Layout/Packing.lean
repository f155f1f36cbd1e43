/-
  FolioGrid.Proofs.Layout.Packing
  ────────────────────────────────
  **HOW SUB-COLUMNS ARE FILLED.**

  Glyphs are set one by one, and a sub-column ends where it is full, where the indent
  changes and at a forced break.  Looked at from above, there is a simple plan:

      runs      — the passages that have words, cut where a break is forced and where
                  the indent changes, and nowhere else
      runHalves — the glyphs of a run in chunks, each as long as its sub-column

  Main result: `pack_eq_runs`.  What is packed are the sub-columns of the runs, one run
  after the other.  So no sub-column is empty, none has two indents, a forced break
  opens one, and only the last of a run can be short.
-/
import FolioGrid.Proofs.Layout.Slices
import Mathlib.Data.List.SplitBy

namespace FolioGrid

open FolioGrid.Text

/-! ## §1. Runs. -/

/-- Whether a passage may go on in the sub-column in which the one before it ends. -/
def Passage.goesOn (before q : Passage) : Bool := q.indent = before.indent && !q.force

/-- The passages that have words, cut where one of them may not go on. -/
def runs (passages : List Passage) : List (List Passage) :=
  (passages.filter (·.text ≠ [])).splitBy Passage.goesOn

/-- The glyphs of a run. -/
def runGlyphs (run : List Passage) : List Text := run.flatMap fun q => glyphs q.text

/-- The sub-columns of a run: its glyphs in chunks, each as long as a sub-column at the
indent of the run. -/
def runHalves (s : Settings) : List Passage → List SubColumn
  | [] => []
  | q :: rest =>
    (chunks (s.width - q.indent).toNat (runGlyphs (q :: rest))).map fun c => ⟨c.flatten, q.indent⟩

theorem Passage.goesOn_iff {p q : Passage} :
    p.goesOn q = true ↔ q.indent = p.indent ∧ q.force = false := by
  simp [Passage.goesOn]

theorem Passage.goesOn_eq_false_iff {p q : Passage} :
    p.goesOn q = false ↔ q.force = true ∨ q.indent ≠ p.indent := by
  simp [Passage.goesOn]
  tauto

/-- A run has one indent, and no break but that in front. -/
theorem eq_of_isChain_goesOn {q : Passage} {rest : List Passage}
    (h : (q :: rest).IsChain fun p q => p.goesOn q) :
    ∀ p ∈ rest, p.indent = q.indent ∧ p.force = false := by
  induction rest generalizing q with
  | nil => simp
  | cons p rest ih =>
    rw [List.isChain_cons_cons, Passage.goesOn_iff] at h
    obtain ⟨hp, hrest⟩ := h
    intro r hr
    rcases List.mem_cons.1 hr with rfl | hr
    · exact hp
    · have hrp := ih hrest r hr
      exact ⟨hrp.1.trans hp.1, hrp.2⟩

/-! ## §2. Filling. -/

variable {s : Settings}

/-- The cells of glyphs at an indent without a break. -/
def cellsAt (indent : Int) (gs : List Text) : List Cell := gs.map fun g => ⟨g, indent, false⟩

/-- Whether the cells, if there are any, cannot go on in a sub-column at an indent. -/
def Parted (indent : Int) (cells : List Cell) : Prop :=
  ∀ c ∈ cells.head?, c.opens = true ∨ c.indent ≠ indent

/-- Glyphs at one indent fill up the sub-column that is begun, and then others of the same
length, until cells come that cannot go on there. -/
theorem fill_cellsAt {indent : Int} (hroom : indent < s.width) {below : List Cell}
    (hbelow : Parted indent below) (gs : List Text) :
    ∀ (t : Text) (room : Nat),
      fill s ⟨t, indent⟩ room (cellsAt indent gs ++ below) = (do
        let following ← packCells s below
        pure (⟨t ++ (gs.take room).flatten, indent⟩
          :: (chunks (s.width - indent).toNat (gs.drop room)).map (fun c => ⟨c.flatten, indent⟩)
          ++ following)) := by
  -- induction on the glyphs: each goes to the sub-column that is begun, or begins the next
  induction gs with
  | nil =>
    intro t room
    cases below with
    | nil => simp [cellsAt, fill, packCells, chunks_nil]
    | cons c below =>
      have hparted : c.opens = true ∨ c.indent ≠ indent := hbelow c rfl
      have hopens : room = 0 ∨ c.opens = true ∨ c.indent ≠ indent := Or.inr hparted
      rw [show cellsAt indent [] ++ c :: below = c :: below from rfl, fill, if_pos hopens]
      simp [packCells, chunks_nil]
  | cons g gs ih =>
    intro t room
    rw [show cellsAt indent (g :: gs) ++ below = ⟨g, indent, false⟩ :: (cellsAt indent gs ++ below)
      from rfl, fill]
    by_cases hfull : room = 0
    · -- the sub-column is full, and the next one takes a chunk
      obtain ⟨n, hn⟩ : ∃ n, (s.width - indent).toNat = n + 1 :=
        Nat.exists_eq_succ_of_ne_zero (by omega)
      rw [if_pos (Or.inl hfull), Settings.capacity_of_lt hroom, hn]
      simp only [bind, Except.bind, pure, Except.pure] at ih ⊢
      rw [ih, hfull, hn, List.drop_zero, chunks]
      cases packCells s below with
      | error e => rfl
      | ok following => simp
    · obtain ⟨room, rfl⟩ := Nat.exists_eq_succ_of_ne_zero hfull
      rw [if_neg (by simp), show room.succ - 1 = room from rfl, ih, List.take_succ_cons,
        List.drop_succ_cons, List.flatten_cons, List.append_assoc]

/-- The cells of a run: a first one, with its break if it has one, and others that go on. -/
theorem exists_cells_of_run {q : Passage} {rest : List Passage}
    (hchain : (q :: rest).IsChain fun p q => p.goesOn q) (words : ∀ p ∈ q :: rest, p.text ≠ []) :
    ∃ g gs, runGlyphs (q :: rest) = g :: gs
      ∧ (q :: rest).flatMap Passage.cells = ⟨g, q.indent, q.force⟩ :: cellsAt q.indent gs := by
  obtain ⟨g, gs, hglyphs⟩ := exists_glyphs_cons (words q List.mem_cons_self)
  have hrest : rest.flatMap Passage.cells = cellsAt q.indent (runGlyphs rest) := by
    unfold cellsAt runGlyphs
    rw [List.map_flatMap]
    apply List.flatMap_congr
    intro p hp
    obtain ⟨hindent, hforce⟩ := eq_of_isChain_goesOn hchain p hp
    unfold Passage.cells
    rw [hindent, hforce]
    cases glyphs p.text with
    | nil => rfl
    | cons g gs => rfl
  refine ⟨g, gs ++ runGlyphs rest, ?_, ?_⟩
  · show glyphs q.text ++ runGlyphs rest = _
    rw [hglyphs, List.cons_append]
  · rw [List.flatMap_cons, hrest, Passage.cells, hglyphs]
    simp [cellsAt]

/-- A run is packed by itself, whatever comes after it. -/
theorem packCells_run {q : Passage} {rest : List Passage} (hroom : q.indent < s.width)
    (hchain : (q :: rest).IsChain fun p q => p.goesOn q) (words : ∀ p ∈ q :: rest, p.text ≠ [])
    {below : List Cell} (hbelow : Parted q.indent below) :
    packCells s ((q :: rest).flatMap Passage.cells ++ below) = (do
      let following ← packCells s below
      pure (runHalves s (q :: rest) ++ following)) := by
  obtain ⟨g, gs, hglyphs, hcells⟩ := exists_cells_of_run hchain words
  obtain ⟨n, hn⟩ : ∃ n, (s.width - q.indent).toNat = n + 1 :=
    Nat.exists_eq_succ_of_ne_zero (by omega)
  rw [hcells, List.cons_append, packCells, Settings.capacity_of_lt hroom, hn]
  simp only [bind, Except.bind, pure, Except.pure]
  have hfill := fill_cellsAt hroom hbelow gs g (n + 1 - 1)
  simp only [bind, Except.bind, pure, Except.pure] at hfill
  rw [hfill, runHalves, hglyphs, hn, chunks]
  cases packCells s below with
  | error e => rfl
  | ok following => simp

/-- Runs that are parted from one another are packed one by one. -/
theorem packCells_flatten {rs : List (List Passage)} (hne : [] ∉ rs)
    (hchain : ∀ run ∈ rs, run.IsChain fun p q => p.goesOn q)
    (hparted : rs.IsChain fun a b => ∃ ha hb, (a.getLast ha).goesOn (b.head hb) = false)
    (words : ∀ q ∈ rs.flatten, q.text ≠ []) (room : ∀ q ∈ rs.flatten, q.indent < s.width) :
    packCells s (rs.flatten.flatMap Passage.cells) = .ok (rs.flatMap (runHalves s)) := by
  induction rs with
  | nil => rfl
  | cons run rs ih =>
    rw [List.flatten_cons] at words room
    rw [List.flatten_cons, List.flatMap_append, List.flatMap_cons]
    have hrs := ih (fun h => hne (List.mem_cons_of_mem run h))
      (fun r hr => hchain r (List.mem_cons_of_mem run hr)) hparted.tail
      (fun q hq => words q (List.mem_append_right run hq))
      (fun q hq => room q (List.mem_append_right run hq))
    obtain ⟨q, rest, rfl⟩ : ∃ q rest, run = q :: rest := by
      cases run with
      | nil => exact absurd List.mem_cons_self hne
      | cons q rest => exact ⟨q, rest, rfl⟩
    have hrun := hchain (q :: rest) List.mem_cons_self
    have hbelow : Parted q.indent (rs.flatten.flatMap Passage.cells) := by
      -- the next run begins with a passage that does not go on behind the last of this one
      cases rs with
      | nil => intro c hc; cases hc
      | cons run' rs =>
        rw [List.isChain_cons_cons] at hparted
        obtain ⟨⟨ha, hb, hlast⟩, -⟩ := hparted
        obtain ⟨p, rest', rfl⟩ : ∃ p rest', run' = p :: rest' := List.exists_cons_of_ne_nil hb
        have hindent : ((q :: rest).getLast ha).indent = q.indent := by
          rcases List.mem_cons.1 (List.getLast_mem ha) with h | h
          · rw [h]
          · exact (eq_of_isChain_goesOn hrun _ h).1
        rw [Passage.goesOn_eq_false_iff, hindent] at hlast
        obtain ⟨g, gs, hcells⟩ := Passage.exists_cells (q := p) (words p (by simp))
        intro c hc
        rw [List.flatten_cons, List.cons_append, List.flatMap_cons, hcells] at hc
        cases hc
        exact hlast
    rw [packCells_run (room q (by simp)) hrun (fun p hp => words p (List.mem_append_left _ hp))
      hbelow, hrs]
    rfl

/-! ## §3. Packing. -/

/-- Passages without words have no cells. -/
theorem flatMap_cells_filter (passages : List Passage) :
    (passages.filter (·.text ≠ [])).flatMap Passage.cells = passages.flatMap Passage.cells := by
  induction passages with
  | nil => rfl
  | cons q rest ih =>
    by_cases hq : q.text = []
    · have hcells : q.cells = [] := by simp [Passage.cells, hq, glyphs]
      rw [List.filter_cons_of_neg (by simpa using hq), ih, List.flatMap_cons, hcells,
        List.nil_append]
    · rw [List.filter_cons_of_pos (by simpa using hq), List.flatMap_cons, ih, List.flatMap_cons]

theorem flatten_ne_nil_of_sublist_runGlyphs {run : List Passage} {c : List Text}
    (hsub : c.Sublist (runGlyphs run)) (hne : c ≠ []) : c.flatten ≠ [] := by
  obtain ⟨g, gs, rfl⟩ := List.exists_cons_of_ne_nil hne
  obtain ⟨q, -, hg⟩ := List.mem_flatMap.1 (hsub.subset List.mem_cons_self)
  intro hnil
  exact (successive_glyphs q.text).ne_nil g hg (List.append_eq_nil_iff.1 hnil).1

/-- **A stream is packed run by run.**  If there is room for all of its passages that have
words, these are cut into runs, where a break is forced or the indent changes and nowhere
else; the glyphs of each run are cut into chunks; and these are what is packed, in order,
at the indents of their runs.  None is empty, and in a run all are full but the last. -/
theorem pack_eq_runs (s : Settings) (passages : List Passage)
    (room : ∀ q ∈ passages, q.text ≠ [] → q.indent < s.width) :
    pack s passages = .ok ((runs passages).flatMap (runHalves s))
      ∧ (runs passages).flatten = passages.filter (·.text ≠ [])
      ∧ ((runs passages).IsChain fun above below =>
        ∃ p ∈ above.getLast?, ∃ q ∈ below.head?, q.force = true ∨ q.indent ≠ p.indent)
      ∧ ∀ run ∈ runs passages, ∃ q rest, run = q :: rest
        ∧ (∀ p ∈ rest, p.indent = q.indent ∧ p.force = false)
        ∧ ∃ cs : List (List Text),
          runHalves s run = cs.map (fun c => ⟨c.flatten, q.indent⟩)
            ∧ cs.flatten = run.flatMap (fun p => glyphs p.text)
            ∧ ∀ i c, cs[i]? = some c → c.flatten ≠ [] ∧ 1 ≤ c.length
              ∧ (c.length : Int) ≤ s.width - q.indent
              ∧ (i + 1 < cs.length → (c.length : Int) = s.width - q.indent) := by
  have hflatten : (runs passages).flatten = passages.filter (·.text ≠ []) :=
    List.flatten_splitBy _ _
  have words : ∀ q ∈ (runs passages).flatten, q.text ≠ [] ∧ q.indent < s.width := by
    intro q hq
    rw [hflatten, List.mem_filter] at hq
    have hwords : q.text ≠ [] := by simpa using hq.2
    exact ⟨hwords, room q hq.1 hwords⟩
  have hchain : ∀ run ∈ runs passages, run.IsChain fun p q => p.goesOn q :=
    fun run hrun => List.isChain_of_mem_splitBy hrun
  have hparted := List.isChain_getLast_head_splitBy Passage.goesOn (passages.filter (·.text ≠ []))
  refine ⟨?_, hflatten, ?_, ?_⟩
  · rw [pack, ← flatMap_cells_filter, ← hflatten]
    exact packCells_flatten (List.nil_notMem_splitBy _ _) hchain hparted
      (fun q hq => (words q hq).1) (fun q hq => (words q hq).2)
  · apply hparted.imp
    rintro above below ⟨ha, hb, h⟩
    exact ⟨_, List.getLast_mem_getLast? ha, _, List.head_mem_head? hb,
      Passage.goesOn_eq_false_iff.1 h⟩
  · intro run hrun
    obtain ⟨q, rest, rfl⟩ := List.exists_cons_of_ne_nil (List.ne_nil_of_mem_splitBy hrun)
    have hq := (words q (List.mem_flatten.2 ⟨_, hrun, List.mem_cons_self⟩)).2
    refine ⟨q, rest, rfl, eq_of_isChain_goesOn (hchain _ hrun),
      chunks (s.width - q.indent).toNat (runGlyphs (q :: rest)), rfl, ?_, ?_⟩
    · exact flatten_chunks (by omega) _
    · intro i c hc
      obtain ⟨hpos, hle, hfull⟩ := length_of_getElem?_chunks hc
      refine ⟨?_, hpos, by omega, fun hmore => by have := hfull hmore; omega⟩
      exact flatten_ne_nil_of_sublist_runGlyphs
        (sublist_of_mem_chunks (List.mem_of_getElem? hc)) (List.ne_nil_of_length_pos hpos)

/-- A stream in which a break is forced right behind a full sub-column, a passage has no
words and no room either, and the indent changes. -/
def brokenStream : List Passage :=
  [⟨utf8 "甲", 0, false⟩, ⟨utf8 "乙丙", 0, false⟩, ⟨utf8 "丁", 0, true⟩, ⟨[], 9, true⟩,
    ⟨utf8 "戊己庚", 0, false⟩, ⟨utf8 "辛", 1, false⟩]

/-- It makes three runs, of which the second has two sub-columns. -/
theorem pack_brokenStream :
    let s : Settings := { Settings.standard with width := 3 }
    (∀ q ∈ brokenStream, q.text ≠ [] → q.indent < s.width)
      ∧ pack s brokenStream
        = .ok [⟨utf8 "甲乙丙", 0⟩, ⟨utf8 "丁戊己", 0⟩, ⟨utf8 "庚", 0⟩, ⟨utf8 "辛", 1⟩] := by
  intro s
  have room : ∀ q ∈ brokenStream, q.text ≠ [] → q.indent < s.width := by decide +kernel
  refine ⟨room, ?_⟩
  rw [(pack_eq_runs s brokenStream room).1]
  decide +kernel

end FolioGrid
