/-
  FolioGrid.Proofs.Offsets.Layout
  ────────────────────────────────
  **COLUMNS BY OFFSETS.**

  A paragraph is laid out from one offset among its glyphs to the next.  In a run of
  glosses a place is given by two numbers: the number of a passage and an offset among
  its glyphs.  A sub-column takes glyphs from such a place on, passage by passage, and
  says where the next one begins.

  `Remains` tells which cells are left at a place; with it, what one sub-column takes
  is what `fill` puts into it (`fillFrom_fill`).
-/
import FolioGrid.Proofs.Layout.Packing
import FolioGrid.Proofs.Offsets.Pieces

namespace FolioGrid.Offsets

open FolioGrid.Text

variable {s : Settings}

/-! ## §1. Paragraphs. -/

/-- The text of the glyphs from one offset up to another. -/
def joinFrom (gs : List Text) (start stop : Nat) : Checked Text :=
  if start < stop then do
    let g ← itemAt gs start
    let rest ← joinFrom gs (start + 1) stop
    pure (g ++ rest)
  else pure []
termination_by stop - start

/-- Glyphs are joined from one offset to another by reading each of them. -/
theorem Rest.joinFrom {gs u v : List Text} {i : Nat} (h : Rest gs i (u ++ v)) :
    joinFrom gs i (i + u.length) = .ok u.flatten := by
  induction u generalizing i with
  | nil =>
    rw [Offsets.joinFrom, if_neg (by simp)]
    rfl
  | cons g u ih =>
    have hnext : Rest gs (i + 1) (u ++ v) := h.next
    have hrest := ih hnext
    rw [Nat.add_right_comm] at hrest
    rw [Offsets.joinFrom, if_pos (by simp), Rest.itemAt h, ok_bind, List.length_cons,
      ← Nat.add_assoc, hrest]
    rfl

/-- The columns of a paragraph from an offset among its glyphs on. -/
def columnsFrom (s : Settings) (p : Paragraph) (gs : List Text) (pos : Nat) (first : Bool) :
    Checked (List Column) :=
  if pos < gs.length then do
    let indent := if first then p.firstIndent else p.indent
    let n ← refusing (s.capacity indent)
    let stop := min gs.length (pos + n)
    let text ← joinFrom gs pos stop
    if _h : gs.length - stop < gs.length - pos then
      let rest ← columnsFrom s p gs stop false
      pure (.single text indent :: rest)
    else .error .stuck
  else pure []
termination_by gs.length - pos

/-- The columns of a paragraph. -/
def layoutParagraph (s : Settings) (p : Paragraph) : Checked (List Column) := do
  let gs ← glyphs p.text
  columnsFrom s p gs 0 true

/-- One column takes as many glyphs as it has room for. -/
theorem Rest.columnsFrom_cons {p : Paragraph} {gs : List Text} {g : Text} {u : List Text} {i : Nat}
    (h : Rest gs i (g :: u)) (first : Bool) :
    columnsFrom s p gs i first = (do
      let indent := if first then p.firstIndent else p.indent
      let n ← refusing (s.capacity indent)
      let rest ← columnsFrom s p gs (min gs.length (i + n)) false
      pure (.single ((g :: u).take n).flatten indent :: rest)) := by
  rw [columnsFrom, if_pos h.lt]
  dsimp only
  cases hn : s.capacity (if first then p.firstIndent else p.indent) with
  | error failure => rfl
  | ok n =>
    have hlength := h.length_eq
    have hpos := Settings.capacity_pos hn
    have htake : Rest gs i ((g :: u).take n ++ (g :: u).drop n) := by
      rwa [List.take_append_drop]
    have hstop : min gs.length (i + n) = i + ((g :: u).take n).length := by
      rw [List.length_take]
      omega
    rw [List.length_cons] at hlength
    rw [refusing_ok, ok_bind, ok_bind, hstop, htake.joinFrom, ok_bind, dif_pos]
    rw [← hstop]
    omega

/-- Behind its first column, a paragraph is cut into chunks from wherever it has come to. -/
theorem Rest.columnsFrom {p : Paragraph} {gs u : List Text} {i n : Nat} (h : Rest gs i u)
    (hn : s.capacity p.indent = .ok n) :
    columnsFrom s p gs i false = .ok ((chunks n u).map fun c => .single c.flatten p.indent) := by
  induction n, u using chunks.induct generalizing i with
  | case1 u => exact absurd (Settings.capacity_pos hn) (Nat.lt_irrefl 0)
  | case2 n _ =>
    rw [Offsets.columnsFrom, if_neg h.not_lt, chunks_nil]
    rfl
  | case3 n g rest ih =>
    have hlength := h.length_eq
    rw [List.length_cons] at hlength
    rw [h.columnsFrom_cons, chunks]
    simp only [Bool.false_eq_true, if_false]
    rw [hn, refusing_ok, ok_bind, List.take_succ_cons]
    by_cases hmore : n ≤ rest.length
    · -- the column is full, and the next one begins behind it
      have hrest : Rest gs (i + (n + 1)) (rest.drop n) :=
        h.drop (n := n + 1) (by rw [List.length_cons]; omega)
      rw [Nat.min_eq_right (by omega), ih hrest hn]
      rfl
    · have hdrop : rest.drop n = [] := List.drop_eq_nil_iff.2 (by omega)
      rw [Nat.min_eq_left (by omega), Offsets.columnsFrom, if_neg (Nat.lt_irrefl _), hdrop,
        chunks_nil]
      rfl

/-- **A paragraph is laid out** chunk by chunk, or refused for its lack of room. -/
theorem layoutParagraph_eq (s : Settings) (p : Paragraph) :
    layoutParagraph s p = refusing (p.columns s) := by
  unfold layoutParagraph Paragraph.columns
  rw [glyphs_eq, ok_bind]
  have hstart := Rest.start (Text.glyphs p.text)
  generalize Text.glyphs p.text = gs at hstart ⊢
  cases gs with
  | nil =>
    rw [columnsFrom, if_neg hstart.not_lt]
    rfl
  | cons g gs =>
    rw [hstart.columnsFrom_cons]
    simp only [if_true, Nat.zero_add]
    cases hn : s.capacity p.firstIndent with
    | error failure => rfl
    | ok n =>
      rw [refusing_bind, refusing_ok, ok_bind, ok_bind]
      cases hdrop : (g :: gs).drop n with
      | nil =>
        have hall : (g :: gs).length ≤ n := List.drop_eq_nil_iff.1 hdrop
        rw [Nat.min_eq_left hall, columnsFrom, if_neg (Nat.lt_irrefl _)]
        rfl
      | cons g' gs' =>
        have hmore : n < (g :: gs).length := by
          by_contra hle
          rw [List.drop_eq_nil_iff.2 (Nat.le_of_not_lt hle)] at hdrop
          cases hdrop
        have hrest := hstart.drop (Nat.le_of_lt hmore)
        rw [Nat.zero_add, hdrop] at hrest
        rw [Nat.min_eq_right (Nat.le_of_lt hmore)]
        cases hbelow : s.capacity p.indent with
        | error failure =>
          rw [hrest.columnsFrom_cons]
          simp only [Bool.false_eq_true, if_false, hbelow]
          rfl
        | ok m =>
          rw [hrest.columnsFrom hbelow]
          rfl

/-! ## §2. Sub-columns. -/

/-- A passage with its glyphs. -/
structure Pending where
  /-- The glyphs. -/
  glyphs : List Text
  /-- The indent. -/
  indent : Int
  /-- Whether it has to start a new sub-column. -/
  force : Bool
  deriving DecidableEq, Repr

/-- The cells of a passage. -/
def Pending.cells (q : Pending) : List Cell :=
  match q.glyphs with
  | [] => []
  | g :: gs => ⟨g, q.indent, q.force⟩ :: cellsAt q.indent gs

/-- The passages that have words, with their glyphs. -/
def pendings : List Passage → Checked (List Pending)
  | [] => pure []
  | q :: rest =>
    if q.text = [] then pendings rest
    else do
      let gs ← glyphs q.text
      let following ← pendings rest
      pure (⟨gs, q.indent, q.force⟩ :: following)

/-- Fill a sub-column with what it has room for, from a place on, and tell where the next
one begins: the number of a passage and an offset among its glyphs. -/
def fillFrom (segments : List Pending) (column : SubColumn) (room index offset : Nat) :
    Checked (SubColumn × Nat × Nat) :=
  if 0 < room ∧ index < segments.length then do
    let segment ← itemAt segments index
    let left ← difference segment.glyphs.length offset
    let taken := min room left
    let part ← joinFrom segment.glyphs offset (offset + taken)
    let filled := { column with text := column.text ++ part }
    let unused ← difference room taken
    if offset + taken < segment.glyphs.length then
      if _h : segments.length - index + unused < segments.length - index + room then
        fillFrom segments filled unused index (offset + taken)
      else .error .stuck
    else do
      let parted ← stopsAt filled unused (index + 1)
      if parted then pure (filled, index + 1, 0)
      else if _h : segments.length - (index + 1) + unused < segments.length - index + room then
        fillFrom segments filled unused (index + 1) 0
      else .error .stuck
  else pure (column, index, offset)
termination_by segments.length - index + room
where
  /-- Whether a sub-column with room left ends in front of a passage. -/
  stopsAt (column : SubColumn) (room index : Nat) : Checked Bool :=
    if 0 < room ∧ index < segments.length then do
      let next ← itemAt segments index
      pure (decide (next.indent ≠ column.indent) || next.force)
    else pure false

/-- How many glyphs are left at a place. -/
def glyphsLeft (segments : List Pending) (index offset : Nat) : Nat :=
  ((segments.drop index).flatMap Pending.glyphs).length - offset

/-- The sub-columns from a place on. -/
def packFrom (s : Settings) (segments : List Pending) (index offset : Nat) :
    Checked (List SubColumn) :=
  if index < segments.length then do
    let segment ← itemAt segments index
    let n ← refusing (s.capacity segment.indent)
    let (column, index', offset') ← fillFrom segments ⟨[], segment.indent⟩ n index offset
    if _h : glyphsLeft segments index' offset' < glyphsLeft segments index offset then do
      let rest ← packFrom s segments index' offset'
      pure (column :: rest)
    else .error .stuck
  else pure []
termination_by glyphsLeft segments index offset

/-- The sub-columns of some passages. -/
def packSubColumns (s : Settings) (passages : List Passage) : Checked (List SubColumn) := do
  let segments ← pendings passages
  packFrom s segments 0 0

/-! ### What is left at a place. -/

section

variable {segments more : List Pending} {q : Pending} {gs : List Text} {index offset : Nat}

/-- The cells that are left at a place.  A break at the first one does not count, since a
sub-column begins there anyway. -/
inductive Remains (segments : List Pending) (index offset : Nat) : List Cell → Prop where
  /-- All passages have been passed. -/
  | done (h : Rest segments index []) : Remains segments index offset []
  /-- Some glyphs of a passage are left, and the passages behind it. -/
  | inside {q : Pending} {more : List Pending} {gs : List Text} (h : Rest segments index (q :: more))
      (hgs : Rest q.glyphs offset gs) (hne : gs ≠ []) :
    Remains segments index offset (cellsAt q.indent gs ++ more.flatMap Pending.cells)

@[simp] theorem length_cellsAt (indent : Int) (gs : List Text) :
    (cellsAt indent gs).length = gs.length := List.length_map _

/-- A passage has a cell for each of its glyphs. -/
theorem Pending.length_cells (q : Pending) : q.cells.length = q.glyphs.length := by
  unfold Pending.cells
  cases q.glyphs <;> simp

/-- So have passages together. -/
theorem length_flatMap_cells (segments : List Pending) :
    (segments.flatMap Pending.cells).length = (segments.flatMap Pending.glyphs).length := by
  induction segments with
  | nil => rfl
  | cons q rest ih =>
    rw [List.flatMap_cons, List.flatMap_cons, List.length_append, List.length_append, ih,
      q.length_cells]

/-- How much is left is known from the two numbers of a place. -/
theorem Remains.glyphsLeft_eq {cells : List Cell} (h : Remains segments index offset cells) :
    glyphsLeft segments index offset = cells.length := by
  unfold glyphsLeft
  cases h with
  | done h => rw [h.drop_eq]; simp
  | inside h hgs hne =>
    have hlength := hgs.length_eq
    rw [h.drop_eq, List.flatMap_cons, List.length_append, List.length_append, length_flatMap_cells,
      length_cellsAt]
    omega

/-- A sub-column that is full, or cannot go on, ends where it is. -/
theorem fill_done {column : SubColumn} {room : Nat} {cells : List Cell}
    (h : room = 0 ∨ Parted column.indent cells) :
    fill s column room cells = (do
      let following ← packCells s cells
      pure (column :: following)) := by
  cases cells with
  | nil => rfl
  | cons c cells =>
    rw [fill, if_pos (h.imp_right fun hparted => hparted c rfl), packCells]
    simp only [bind_assoc]

/-- Glyphs at the indent of a sub-column go into it as long as there is room. -/
theorem fill_append {i : Int} (gs : List Text) {room : Nat} (hroom : gs.length ≤ room) (t : Text)
    (cells : List Cell) :
    fill s ⟨t, i⟩ room (cellsAt i gs ++ cells)
      = fill s ⟨t ++ gs.flatten, i⟩ (room - gs.length) cells := by
  induction gs generalizing room t with
  | nil => simp [cellsAt]
  | cons g gs ih =>
    rw [List.length_cons] at hroom ⊢
    rw [show cellsAt i (g :: gs) ++ cells = ⟨g, i, false⟩ :: (cellsAt i gs ++ cells) from rfl, fill,
      if_neg (by simp; omega), ih (by omega), List.flatten_cons, List.append_assoc,
      Nat.sub_sub, Nat.add_comm 1]

/-- What is packed begins with a sub-column that is filled from nothing. -/
theorem packCells_cellsAt {i : Int} (hne : gs ≠ []) (cells : List Cell) :
    packCells s (cellsAt i gs ++ cells) = (do
      let n ← s.capacity i
      fill s ⟨[], i⟩ n (cellsAt i gs ++ cells)) := by
  obtain ⟨g, gs, rfl⟩ := List.exists_cons_of_ne_nil hne
  rw [show cellsAt i (g :: gs) ++ cells = ⟨g, i, false⟩ :: (cellsAt i gs ++ cells) from rfl,
    packCells]
  cases hn : s.capacity i with
  | error failure => rfl
  | ok n =>
    have hpos := Settings.capacity_pos hn
    show fill s ⟨g, i⟩ (n - 1) _ = fill s ⟨[], i⟩ n _
    conv => rhs; rw [fill, if_neg (by simp; omega)]
    rfl

/-- A break at the first cell does not count. -/
theorem packCells_cells (hne : q.glyphs ≠ []) (cells : List Cell) :
    packCells s (q.cells ++ cells) = packCells s (cellsAt q.indent q.glyphs ++ cells) := by
  obtain ⟨g, gs, hgs⟩ := List.exists_cons_of_ne_nil hne
  unfold Pending.cells
  rw [hgs]
  rfl

/-- At the first glyph of a passage, or behind the last, the same is packed as without a place. -/
theorem exists_remains (hwords : ∀ q ∈ segments, q.glyphs ≠ []) (h : Rest segments index more) :
    ∃ cells, Remains segments index 0 cells
      ∧ cells.length = (more.flatMap Pending.cells).length
      ∧ ∀ s, packCells s (more.flatMap Pending.cells) = packCells s cells := by
  cases more with
  | nil => exact ⟨[], .done h, rfl, fun s => rfl⟩
  | cons q more =>
    have hq := hwords q (h.suffix.mem List.mem_cons_self)
    refine ⟨_, .inside h (Rest.start q.glyphs) hq, ?_, ?_⟩
    · rw [List.flatMap_cons, List.length_append, List.length_append, q.length_cells, length_cellsAt]
    · intro s
      rw [List.flatMap_cons, packCells_cells hq]

/-- A sub-column without room takes nothing. -/
theorem fillFrom_zero (column : SubColumn) :
    fillFrom segments column 0 index offset = .ok (column, index, offset) := by
  rw [fillFrom, if_neg (by simp)]
  rfl

/-- Nor does one take anything where no passage is left. -/
theorem fillFrom_nil (h : Rest segments index []) (column : SubColumn) (room : Nat) :
    fillFrom segments column room index offset = .ok (column, index, offset) := by
  rw [fillFrom, if_neg fun hplace => h.not_lt hplace.2]
  rfl

/-- Of a passage that has more glyphs than there is room for, so many are taken. -/
theorem fillFrom_of_lt (h : Rest segments index (q :: more)) (hgs : Rest q.glyphs offset gs)
    {room : Nat} (hroom : room < gs.length) (hpos : 0 < room) (column : SubColumn) :
    fillFrom segments column room index offset
      = .ok ({ column with text := column.text ++ (gs.take room).flatten }, index,
          offset + room) := by
  have hlength := hgs.length_eq
  have hleft : q.glyphs.length - offset = gs.length := by omega
  have htake : Rest q.glyphs offset (gs.take room ++ gs.drop room) := by
    rwa [List.take_append_drop]
  have hjoin := htake.joinFrom
  rw [List.length_take_of_le (Nat.le_of_lt hroom)] at hjoin
  rw [fillFrom, if_pos ⟨hpos, h.lt⟩, h.itemAt, ok_bind, difference_of_le hgs.le, ok_bind, hleft]
  dsimp only
  rw [Nat.min_eq_left (Nat.le_of_lt hroom), hjoin, ok_bind, difference_of_le (Nat.le_refl room),
    ok_bind, if_pos (by omega), dif_pos (by omega), Nat.sub_self, fillFrom_zero]

/-- Of any other passage all is taken, and then the next one is looked at. -/
theorem fillFrom_of_le (h : Rest segments index (q :: more)) (hgs : Rest q.glyphs offset gs)
    {room : Nat} (hroom : gs.length ≤ room) (hpos : 0 < room) (column : SubColumn) :
    fillFrom segments column room index offset = (do
      let filled := { column with text := column.text ++ gs.flatten }
      let parted ← fillFrom.stopsAt segments filled (room - gs.length) (index + 1)
      if parted then pure (filled, index + 1, 0)
      else fillFrom segments filled (room - gs.length) (index + 1) 0) := by
  have hlength := hgs.length_eq
  have hleft : q.glyphs.length - offset = gs.length := by omega
  have hall : Rest q.glyphs offset (gs ++ []) := by rwa [List.append_nil]
  have hlt := h.lt
  have hdecrease : segments.length - (index + 1) + (room - gs.length)
      < segments.length - index + room := by omega
  conv => lhs; rw [fillFrom, if_pos ⟨hpos, h.lt⟩, h.itemAt, ok_bind, difference_of_le hgs.le]
  rw [ok_bind, hleft]
  dsimp only
  rw [Nat.min_eq_right hroom, hall.joinFrom, ok_bind, difference_of_le hroom, ok_bind,
    if_neg (by omega)]
  simp only [dif_pos hdecrease]

/-- Where no passage is left there is none to stop at. -/
theorem stopsAt_nil (h : Rest segments index []) (column : SubColumn) (room : Nat) :
    fillFrom.stopsAt segments column room index = .ok false := by
  rw [fillFrom.stopsAt, if_neg fun hplace => h.not_lt hplace.2]
  rfl

/-- Without room nothing is asked of the next passage. -/
theorem stopsAt_zero (column : SubColumn) :
    fillFrom.stopsAt segments column 0 index = .ok false := by
  rw [fillFrom.stopsAt, if_neg (by simp)]
  rfl

/-- A sub-column stops at a passage with another indent or with a break in front. -/
theorem stopsAt_cons (h : Rest segments index (q :: more)) (column : SubColumn) {room : Nat}
    (hpos : 0 < room) :
    fillFrom.stopsAt segments column room index
      = .ok (decide (q.indent ≠ column.indent) || q.force) := by
  rw [fillFrom.stopsAt, if_pos ⟨hpos, h.lt⟩, h.itemAt]
  rfl

/-- **What one sub-column takes** from a place on is what fills it, and what is left there
are the cells behind. -/
theorem fillFrom_fill {segments more : List Pending} {q : Pending} {gs : List Text}
    {index offset room : Nat} (column : SubColumn) (hwords : ∀ q ∈ segments, q.glyphs ≠ [])
    (h : Rest segments index (q :: more)) (hgs : Rest q.glyphs offset gs) (hne : gs ≠ [])
    (hindent : q.indent = column.indent) (hpos : 0 < room) :
    ∃ column' index' offset' cells,
      fillFrom segments column room index offset = .ok (column', index', offset')
        ∧ Remains segments index' offset' cells
        ∧ cells.length < (cellsAt q.indent gs ++ more.flatMap Pending.cells).length
        ∧ ∀ s, fill s column room (cellsAt q.indent gs ++ more.flatMap Pending.cells) = (do
          let following ← packCells s cells
          pure (column' :: following)) := by
  have hcount : 0 < gs.length := List.length_pos_iff.2 hne
  obtain ⟨t, i⟩ := column
  cases hindent
  by_cases hroom : room < gs.length
  · -- the sub-column ends inside the passage
    have hdrop := hgs.drop (Nat.le_of_lt hroom)
    have hleft : gs.drop room ≠ [] := by
      intro hnil
      have := List.drop_eq_nil_iff.1 hnil
      omega
    refine ⟨_, _, _, _, fillFrom_of_lt h hgs hroom hpos _, .inside h hdrop hleft, ?_, ?_⟩
    · simp only [List.length_append, length_cellsAt, List.length_drop]
      omega
    · intro s
      have htake : (gs.take room).length = room := List.length_take_of_le (Nat.le_of_lt hroom)
      have hsplit : cellsAt q.indent gs ++ more.flatMap Pending.cells
          = cellsAt q.indent (gs.take room)
            ++ (cellsAt q.indent (gs.drop room) ++ more.flatMap Pending.cells) := by
        unfold cellsAt
        rw [← List.append_assoc, ← List.map_append, List.take_append_drop]
      rw [hsplit, fill_append _ (Nat.le_of_eq htake), htake, Nat.sub_self, fill_done (Or.inl rfl)]
  · have hroom : gs.length ≤ room := Nat.le_of_not_lt hroom
    obtain ⟨cells, hcells, hlength, hpack⟩ := exists_remains hwords h.next
    have hshorter : cells.length
        < (cellsAt q.indent gs ++ more.flatMap Pending.cells).length := by
      rw [hlength, List.length_append, length_cellsAt]
      omega
    -- where the sub-column ends behind the passage
    have stop : room - gs.length = 0 ∨ Parted q.indent (more.flatMap Pending.cells) →
        ∀ s, fill s ⟨t, q.indent⟩ room (cellsAt q.indent gs ++ more.flatMap Pending.cells) = (do
          let following ← packCells s cells
          pure (⟨t ++ gs.flatten, q.indent⟩ :: following)) := by
      intro hdone s
      rw [fill_append gs hroom, fill_done hdone, hpack]
    rw [fillFrom_of_le h hgs hroom hpos]
    dsimp only
    cases more with
    | nil =>
      rw [stopsAt_nil h.next, ok_bind, if_neg Bool.false_ne_true, fillFrom_nil h.next]
      refine ⟨_, _, _, cells, rfl, hcells, hshorter, stop (Or.inr ?_)⟩
      intro c hc
      cases hc
    | cons next more =>
      obtain ⟨g, gs', hnext⟩ := List.exists_cons_of_ne_nil
        (hwords next (h.next.suffix.mem List.mem_cons_self))
      by_cases hfull : room - gs.length = 0
      · rw [hfull, stopsAt_zero, ok_bind, if_neg Bool.false_ne_true, fillFrom_zero]
        exact ⟨_, _, _, cells, rfl, hcells, hshorter, stop (Or.inl hfull)⟩
      rw [stopsAt_cons h.next _ (Nat.pos_of_ne_zero hfull), ok_bind]
      by_cases hparted : (decide (next.indent ≠ q.indent) || next.force) = true
      · rw [if_pos hparted]
        refine ⟨_, _, _, cells, rfl, hcells, hshorter, stop (Or.inr ?_)⟩
        intro c hc
        rw [List.flatMap_cons, Pending.cells, hnext] at hc
        cases hc
        simpa [or_comm] using hparted
      · -- the next passage goes on in it
        have hgoes : next.indent = q.indent ∧ next.force = false := by simpa using hparted
        obtain ⟨column', index', offset', cells', hfill, hremains, hless, hpacked⟩ :=
          fillFrom_fill ⟨t ++ gs.flatten, q.indent⟩ hwords h.next
            (Rest.start next.glyphs) (by rw [hnext]; exact List.cons_ne_nil g gs') hgoes.1
            (Nat.pos_of_ne_zero hfull)
        have hsame : next.cells = cellsAt next.indent next.glyphs := by
          rw [Pending.cells, hnext, hgoes.2]
          rfl
        rw [if_neg hparted]
        refine ⟨column', index', offset', cells', hfill, hremains, ?_, ?_⟩
        · refine Nat.lt_trans hless ?_
          simp only [List.flatMap_cons, hsame, List.length_append, length_cellsAt]
          omega
        · intro s
          rw [fill_append gs hroom, List.flatMap_cons, hsame, hpacked]
termination_by room
decreasing_by omega

/-- From a place on, what is left there is packed. -/
theorem packFrom_eq (s : Settings) {segments : List Pending} {index offset : Nat}
    {cells : List Cell} (hwords : ∀ q ∈ segments, q.glyphs ≠ [])
    (h : Remains segments index offset cells) :
    packFrom s segments index offset = refusing (packCells s cells) := by
  rw [packFrom]
  cases h with
  | done hplace =>
    rw [if_neg hplace.not_lt]
    rfl
  | @inside q more gs hplace hgs hne =>
    rw [if_pos hplace.lt, hplace.itemAt, ok_bind, packCells_cellsAt hne]
    cases hn : s.capacity q.indent with
    | error failure => rfl
    | ok n =>
      obtain ⟨column, index', offset', cells', hfill, hremains, hless, hpacked⟩ :=
        fillFrom_fill ⟨[], q.indent⟩ hwords hplace hgs hne rfl
          (Settings.capacity_pos hn)
      have hmeasure : glyphsLeft segments index' offset' < glyphsLeft segments index offset := by
        rwa [hremains.glyphsLeft_eq, (Remains.inside hplace hgs hne).glyphsLeft_eq]
      rw [refusing_ok, ok_bind, hfill, ok_bind]
      dsimp only
      rw [dif_pos hmeasure, packFrom_eq s hwords hremains]
      show _ = refusing (fill s ⟨[], q.indent⟩ n _)
      rw [hpacked]
      cases packCells s cells' <;> rfl
termination_by cells.length
decreasing_by exact hless

/-- Passages without words are dropped, and no cell is lost with them. -/
theorem pendings_eq (passages : List Passage) :
    ∃ segments, pendings passages = .ok segments ∧ (∀ q ∈ segments, q.glyphs ≠ [])
      ∧ segments.flatMap Pending.cells = passages.flatMap Passage.cells := by
  induction passages with
  | nil => exact ⟨[], rfl, by simp, rfl⟩
  | cons q rest ih =>
    obtain ⟨segments, hrest, hwords, hcells⟩ := ih
    by_cases hq : q.text = []
    · have hnone : q.cells = [] := by simp [Passage.cells, hq, Text.glyphs]
      refine ⟨segments, ?_, hwords, ?_⟩
      · rw [pendings, if_pos hq, hrest]
      · rw [List.flatMap_cons, hnone, List.nil_append, hcells]
    · refine ⟨⟨Text.glyphs q.text, q.indent, q.force⟩ :: segments, ?_, ?_, ?_⟩
      · rw [pendings, if_neg hq, glyphs_eq, ok_bind, hrest]
        rfl
      · rw [List.forall_mem_cons]
        refine ⟨?_, hwords⟩
        obtain ⟨g, gs, hglyphs⟩ := exists_glyphs_cons hq
        show Text.glyphs q.text ≠ []
        rw [hglyphs]
        exact List.cons_ne_nil g gs
      · rw [List.flatMap_cons, List.flatMap_cons, hcells]
        rfl

/-- **Packing from place to place** is packing glyph by glyph. -/
theorem packSubColumns_eq (s : Settings) (passages : List Passage) :
    packSubColumns s passages = refusing (pack s passages) := by
  obtain ⟨segments, hsegments, hwords, hcells⟩ := pendings_eq passages
  obtain ⟨cells, hremains, -, hpack⟩ := exists_remains hwords (Rest.start segments)
  rw [packSubColumns, hsegments, ok_bind, packFrom_eq s hwords hremains, ← hpack, hcells, pack]

end

/-! ## §3. Dual columns. -/

/-- The dual columns of the sub-columns from an index on. -/
def pairFrom (halves : List SubColumn) (index : Nat) : Checked (List DualColumn) :=
  if index < halves.length then do
    let right ← itemAt halves index
    let column ← withLeft right (index + 1)
    let rest ← pairFrom halves (index + 2)
    pure (column :: rest)
  else pure []
termination_by halves.length - index
where
  /-- The column of a right half and of the one at an index, if there is one. -/
  withLeft (right : SubColumn) (index : Nat) : Checked DualColumn :=
    if index < halves.length then do
      let left ← itemAt halves index
      pure (DualColumn.ofHalves right left)
    else pure { indent := right.indent, right := right.text }

/-- Sub-columns are taken two by two, the last one alone if their number is odd. -/
theorem Rest.pairFrom {halves u : List SubColumn} {i : Nat} (h : Rest halves i u) :
    pairFrom halves i = .ok (pair u) := by
  fun_induction pair u generalizing i with
  | case1 =>
    rw [Offsets.pairFrom, if_neg h.not_lt]
    rfl
  | case2 right =>
    have hlast : ¬ i + 2 < halves.length := by
      have hnot := h.next.not_lt
      omega
    rw [Offsets.pairFrom, if_pos h.lt, Rest.itemAt h, ok_bind, pairFrom.withLeft,
      if_neg h.next.not_lt, pure_eq_ok, ok_bind, Offsets.pairFrom, if_neg hlast]
    rfl
  | case3 right left rest ih =>
    rw [Offsets.pairFrom, if_pos h.lt, Rest.itemAt h, ok_bind, pairFrom.withLeft, if_pos h.next.lt,
      h.next.itemAt, ok_bind, pure_eq_ok, ok_bind, ih h.next.next]
    rfl

/-- The columns of a run of glosses. -/
def layoutRun (s : Settings) (run : List Gloss) : Checked (List Column) := do
  let halves ← packSubColumns s (stream run)
  let columns ← pairFrom halves 0
  pure (columns.map .dual)

/-- **A run of glosses is laid out** in sub-columns, or refused for its lack of room. -/
theorem layoutRun_eq (s : Settings) (run : List Gloss) :
    layoutRun s run = refusing (runColumns s run) := by
  unfold layoutRun runColumns
  rw [packSubColumns_eq]
  cases pack s (stream run) with
  | error failure => rfl
  | ok halves =>
    rw [refusing_ok, ok_bind, (Rest.start halves).pairFrom]
    rfl

/-! ## §4. Blocks. -/

/-- The columns of a block that is no gloss. -/
def layoutBlock (s : Settings) : Block → Checked (List Column)
  | .paragraph p => layoutParagraph s p
  | b => refusing (b.columns s)

/-- A block by itself is laid out as such; only a paragraph needs offsets for it. -/
theorem layoutBlock_eq (s : Settings) (b : Block) : layoutBlock s b = refusing (b.columns s) := by
  cases b with
  | paragraph p => exact layoutParagraph_eq s p
  | _ => rfl

/-- The glosses that follow each other from an index on, and the index behind them. -/
def gatherRun (blocks : List Block) (index : Nat) : Checked (List Gloss × Nat) :=
  if index < blocks.length then do
    let b ← itemAt blocks index
    match b with
    | .gloss a => do
      let (run, stop) ← gatherRun blocks (index + 1)
      pure (a :: run, stop)
    | _ => pure ([], index)
  else pure ([], index)
termination_by blocks.length - index

/-- The columns of the blocks from an index on. -/
def layoutFrom (s : Settings) (blocks : List Block) (index : Nat) : Checked (List Column) :=
  if index < blocks.length then do
    let b ← itemAt blocks index
    match b with
    | .gloss _ => do
      let (run, stop) ← gatherRun blocks index
      let columns ← layoutRun s run
      if _h : blocks.length - stop < blocks.length - index then do
        let rest ← layoutFrom s blocks stop
        pure (columns ++ rest)
      else .error .stuck
    | b => do
      let columns ← layoutBlock s b
      let rest ← layoutFrom s blocks (index + 1)
      pure (columns ++ rest)
  else pure []
termination_by blocks.length - index

/-- The columns of some blocks. -/
def layout (s : Settings) (blocks : List Block) : Checked (List Column) := layoutFrom s blocks 0

/-- Whether no gloss comes first. -/
def NoGloss (blocks : List Block) : Prop := ∀ a ∈ blocks.head?, ∀ g, a ≠ .gloss g

/-- A block that is no gloss ends every run in front of it. -/
theorem stretches_cons {b : Block} (h : ∀ a, b ≠ .gloss a) (rest : List Block) :
    stretches (b :: rest) = .block b :: stretches rest := by
  cases b with
  | gloss a => exact absurd rfl (h a)
  | _ => rfl

/-- Glosses that follow each other make one run. -/
theorem stretches_run (a : Gloss) (run : List Gloss) {rest : List Block} (h : NoGloss rest) :
    stretches ((a :: run).map .gloss ++ rest) = .run (a :: run) :: stretches rest := by
  induction run generalizing a with
  | nil =>
    show Stretch.push (.gloss a) (stretches rest) = _
    cases rest with
    | nil => rfl
    | cons b rest =>
      rw [stretches_cons (h b rfl)]
      rfl
  | cons a' run ih =>
    show Stretch.push (.gloss a) (stretches ((a' :: run).map .gloss ++ rest)) = _
    rw [ih]
    rfl

/-- Stretches are laid out one after the other. -/
theorem refusing_layout {blocks rest : List Block} {r : Stretch}
    (h : stretches blocks = r :: stretches rest) :
    refusing (FolioGrid.layout s blocks) = (do
      let columns ← refusing (r.columns s)
      let following ← refusing (FolioGrid.layout s rest)
      pure (columns ++ following)) := by
  unfold FolioGrid.layout
  rw [h, List.mapM_cons]
  simp only [refusing_bind, bind_assoc, pure_bind, List.flatten_cons]
  rfl

/-- The run at an offset goes on up to the first block that is no gloss. -/
theorem Rest.gatherRun {blocks u : List Block} {i : Nat} (h : Rest blocks i u) :
    ∃ run stop rest, gatherRun blocks i = .ok (run, stop) ∧ Rest blocks stop rest ∧ NoGloss rest
      ∧ u = run.map .gloss ++ rest := by
  induction u generalizing i with
  | nil =>
    refine ⟨[], i, [], ?_, h, by simp [NoGloss], rfl⟩
    rw [Offsets.gatherRun, if_neg h.not_lt]
    rfl
  | cons b u ih =>
    rw [Offsets.gatherRun, if_pos h.lt, h.itemAt, ok_bind]
    cases b with
    | gloss a =>
      obtain ⟨run, stop, rest, hrun, hrest, hnone, rfl⟩ := ih h.next
      refine ⟨a :: run, stop, rest, ?_, hrest, hnone, rfl⟩
      simp only [hrun]
      rfl
    | _ => exact ⟨[], i, _, rfl, h, by simp [NoGloss], rfl⟩

/-- From any offset on, the blocks that are left are laid out as a document of their own
would be. -/
theorem Rest.layoutFrom (s : Settings) {blocks u : List Block} {i : Nat} (h : Rest blocks i u) :
    layoutFrom s blocks i = refusing (FolioGrid.layout s u) := by
  rw [Offsets.layoutFrom]
  cases u with
  | nil =>
    rw [if_neg h.not_lt]
    rfl
  | cons b u =>
    rw [if_pos h.lt, h.itemAt, ok_bind]
    have single : (∀ a, b ≠ .gloss a) → (do
        let columns ← layoutBlock s b
        let rest ← Offsets.layoutFrom s blocks (i + 1)
        pure (columns ++ rest)) = refusing (FolioGrid.layout s (b :: u)) := by
      intro hb
      have hrest := h.next.layoutFrom s
      rw [layoutBlock_eq, hrest, refusing_layout (stretches_cons hb u)]
      rfl
    cases b with
    | gloss a =>
      obtain ⟨run, stop, rest, hrun, hrest, hnone, hu⟩ := h.gatherRun
      cases run with
      | nil =>
        rw [List.map_nil, List.nil_append] at hu
        rw [← hu] at hnone
        exact absurd rfl (hnone _ rfl a)
      | cons a' run =>
        have hlength := h.length_eq
        have hstop := hrest.length_eq
        have hlonger : (Block.gloss a :: u).length = run.length + 1 + rest.length := by
          rw [hu, List.length_append, List.length_map, List.length_cons]
        have hshorter : blocks.length - stop < blocks.length - i := by omega
        simp only [hrun, ok_bind, dif_pos hshorter]
        rw [layoutRun_eq, hrest.layoutFrom s, hu, refusing_layout (stretches_run a' run hnone)]
        rfl
    | _ => exact single fun a ha => nomatch ha
termination_by blocks.length - i
decreasing_by
  · have hlt := h.lt
    omega
  · exact hshorter

/-- **Laying blocks out by offsets** is laying them out. -/
theorem layout_eq (s : Settings) (blocks : List Block) :
    layout s blocks = refusing (FolioGrid.layout s blocks) := (Rest.start blocks).layoutFrom s

end FolioGrid.Offsets
