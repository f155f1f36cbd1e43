/-
  FolioGrid.Proofs.Layout.Widths
  ────────────────────────────────
  **A WIDER GRID.**

  What fits on a grid fits on every wider one, and takes no more columns there.  One
  relation is carried through the steps of a layout: `YieldsNoMore x y` says that `y`
  succeeds if `x` does, with a list that is no longer.

  A line has one column on both grids, and the columns of a paragraph can be counted.
  For glosses, two fills of the same glyphs are compared that end their sub-columns at
  different glyphs.  The one on the wider grid is never behind (`Ahead`): it has begun
  fewer sub-columns, or as many and has at least as much room left in the last.

  Main result: `layout_wider`.
-/
import FolioGrid.Proofs.Layout.Slices

namespace FolioGrid

open FolioGrid.Text

/-! ## §1. Yielding no more. -/

/-- A second computation that succeeds if a first one does, with a list that is no
longer. -/
def YieldsNoMore {α : Type} (x y : Except Failure (List α)) : Prop :=
  ∀ l, x = .ok l → ∃ l', y = .ok l' ∧ l'.length ≤ l.length

section

variable {α β : Type} {x y : Except Failure (List α)}

theorem YieldsNoMore.refl (x : Except Failure (List α)) : YieldsNoMore x x :=
  fun l h => ⟨l, h, Nat.le_refl _⟩

/-- What is made of the lists afterwards keeps their order by length. -/
theorem YieldsNoMore.map (h : YieldsNoMore x y) {f : List α → List β}
    (hf : ∀ l l', l'.length ≤ l.length → (f l').length ≤ (f l).length) :
    YieldsNoMore (x >>= fun l => pure (f l)) (y >>= fun l => pure (f l)) := by
  intro out hout
  obtain ⟨l, hl, hout⟩ := bind_eq_ok.1 hout
  cases hout
  obtain ⟨l', hl', hle⟩ := h l hl
  exact ⟨f l', bind_eq_ok.2 ⟨l', hl', rfl⟩, hf l l' hle⟩

/-- Where no step yields more, all steps together do not. -/
theorem YieldsNoMore.mapM_flatten {f g : α → Except Failure (List β)}
    (h : ∀ a, YieldsNoMore (f a) (g a)) (l : List α) :
    YieldsNoMore (l.mapM f >>= fun out => pure out.flatten)
      (l.mapM g >>= fun out => pure out.flatten) := by
  induction l with
  | nil => exact .refl _
  | cons a l ih =>
    intro columns hcolumns
    obtain ⟨out, hout, hcolumns⟩ := bind_eq_ok.1 hcolumns
    rw [List.mapM_cons] at hout
    obtain ⟨first, hfirst, hout⟩ := bind_eq_ok.1 hout
    obtain ⟨rest, hrest, hout⟩ := bind_eq_ok.1 hout
    cases hout
    cases hcolumns
    obtain ⟨first', hfirst', hle⟩ := h a first hfirst
    obtain ⟨columns', hcolumns', hle'⟩ := ih rest.flatten (bind_eq_ok.2 ⟨rest, hrest, rfl⟩)
    obtain ⟨rest', hrest', hcolumns'⟩ := bind_eq_ok.1 hcolumns'
    cases hcolumns'
    refine ⟨first' ++ rest'.flatten, ?_, ?_⟩
    · rw [List.mapM_cons, hfirst', hrest']
      rfl
    · rw [List.flatten_cons, List.length_append, List.length_append]
      omega

end

/-! ## §2. Lines and paragraphs. -/

variable {s s' : Settings}

/-- On a wider grid no indent has less room. -/
theorem Settings.exists_capacity (hwidth : s.width ≤ s'.width) {indent : Int} {n : Nat}
    (h : s.capacity indent = .ok n) : ∃ n', s'.capacity indent = .ok n' ∧ n ≤ n'
      ∧ n' = (s'.width - indent).toNat ∧ indent < s'.width := by
  obtain ⟨hroom, hn⟩ := Settings.lt_of_capacity h
  have hroom' : indent < s'.width := by omega
  exact ⟨_, Settings.capacity_of_lt hroom', by omega, rfl, hroom'⟩

theorem yieldsNoMore_lineColumns (hwidth : s.width ≤ s'.width) (t : Text) (indent : Int) :
    YieldsNoMore (lineColumns s t indent) (lineColumns s' t indent) := by
  intro columns h
  unfold lineColumns at h ⊢
  split at h
  · next ht =>
    rw [if_pos ht]
    exact ⟨columns, h, Nat.le_refl _⟩
  · next ht =>
    rw [if_neg ht]
    obtain ⟨n, hn, h⟩ := bind_eq_ok.1 h
    cases h
    obtain ⟨n', hn', -⟩ := Settings.exists_capacity hwidth hn
    exact ⟨_, bind_eq_ok.2 ⟨n', hn', rfl⟩, Nat.le_refl _⟩

/-- Where nothing fails, all indents in use have room. -/
theorem FailsAt.lt_of_ok {α : Type} {is : List Int} {x : Except Failure α} (hx : FailsAt s is x)
    {a : α} (h : x = .ok a) : ∀ i ∈ is, i < s.width := by
  intro i hi
  by_contra htight
  obtain ⟨j, hj⟩ := firstTight_isSome_iff.2 ⟨i, hi, Int.not_lt.1 htight⟩
  rw [h] at hx
  rw [show firstTight s.width is = none from hx] at hj
  cases hj

/-- A paragraph that was laid out has room where it sets glyphs. -/
theorem Paragraph.lt_of_columns {p : Paragraph} (words : 1 ≤ (glyphs p.text).length)
    {columns : List Column} (h : p.columns s = .ok columns) :
    p.firstIndent < s.width
      ∧ (s.width - p.firstIndent < (glyphs p.text).length → p.indent < s.width) := by
  have hroom := (p.failsAt_columns s).lt_of_ok h
  unfold Paragraph.indentsUsed at hroom
  rw [if_neg (List.ne_nil_of_length_pos words), List.forall_mem_cons] at hroom
  refine ⟨hroom.1, fun hmore => hroom.2 p.indent ?_⟩
  rw [if_pos hmore]
  exact List.mem_singleton_self _

/-- Fewer glyphs in longer columns take no more of them. -/
theorem ceilDiv_le_ceilDiv {l l' n n' : Nat} (hn : 0 < n) (hnn' : n ≤ n') (hl : l' ≤ l) :
    l' ⌈/⌉ n' ≤ l ⌈/⌉ n := by
  rw [ceilDiv_le_iff_le_mul (Nat.lt_of_lt_of_le hn hnn')]
  calc l' ≤ l := hl
    _ ≤ n * (l ⌈/⌉ n) := le_smul_ceilDiv hn
    _ ≤ n' * (l ⌈/⌉ n) := Nat.mul_le_mul_right _ hnn'

theorem Paragraph.yieldsNoMore_columns (hwidth : s.width ≤ s'.width) (p : Paragraph) :
    YieldsNoMore (p.columns s) (p.columns s') := by
  intro columns h
  by_cases hnone : glyphs p.text = []
  · -- no words, no columns
    unfold Paragraph.columns at h ⊢
    rw [hnone] at h ⊢
    exact ⟨columns, h, Nat.le_refl _⟩
  have words : 1 ≤ (glyphs p.text).length := List.length_pos_iff.2 hnone
  obtain ⟨hfirst, hlater⟩ := Paragraph.lt_of_columns words h
  have hfirst' : p.firstIndent < s'.width := by omega
  have hlater' : s'.width - p.firstIndent < (glyphs p.text).length → p.indent < s'.width := by
    intro hmore
    have := hlater (by omega)
    omega
  rw [Paragraph.columns_eq_ok words hfirst hlater] at h
  cases h
  refine ⟨_, Paragraph.columns_eq_ok words hfirst' hlater', ?_⟩
  rw [List.length_mapIdx, List.length_mapIdx, Paragraph.length_slices hlater,
    Paragraph.length_slices hlater']
  split
  · -- all of it stands in the first column of the wider grid
    split <;> omega
  · next hmore' =>
    rw [if_neg (show ¬ ((glyphs p.text).length : Int) ≤ s.width - p.firstIndent by omega)]
    have hroom := hlater (by omega)
    refine Nat.add_le_add_left (ceilDiv_le_ceilDiv ?_ ?_ ?_) 1
    · omega
    · omega
    · omega

/-! ## §3. Runs of glosses. -/

section

variable {column : SubColumn} {room : Nat} {c : Cell} {rest : List Cell}

/-- A glyph that cannot go on in a sub-column begins the next one. -/
theorem fill_cons_eq_ok_iff (h : room = 0 ∨ c.opens ∨ c.indent ≠ column.indent)
    {halves : List SubColumn} :
    fill s column room (c :: rest) = .ok halves
      ↔ ∃ n following, s.capacity c.indent = .ok n
        ∧ fill s ⟨c.glyph, c.indent⟩ (n - 1) rest = .ok following
        ∧ halves = column :: following := by
  rw [fill, if_pos h]
  constructor
  · intro h
    obtain ⟨n, hn, h⟩ := bind_eq_ok.1 h
    obtain ⟨following, hfollowing, h⟩ := bind_eq_ok.1 h
    cases h
    exact ⟨n, following, hn, hfollowing, rfl⟩
  · rintro ⟨n, following, hn, hfollowing, rfl⟩
    exact bind_eq_ok.2 ⟨n, hn, bind_eq_ok.2 ⟨following, hfollowing, rfl⟩⟩

/-- Any other one is added to it. -/
theorem fill_cons_of_room (h : ¬ (room = 0 ∨ c.opens ∨ c.indent ≠ column.indent)) :
    fill s column room (c :: rest)
      = fill s { column with text := column.text ++ c.glyph } (room - 1) rest := by
  rw [fill, if_neg h]

end

/-- Two fills of the same glyphs, of which the second, on a wider grid `s'`, has begun
`lead` sub-columns fewer than the first. -/
structure Ahead (s' : Settings) (column column' : SubColumn) (room room' lead : Nat) : Prop where
  /-- Both stand at one indent. -/
  indent : column'.indent = column.indent
  /-- The wider grid has room there. -/
  fits : column.indent < s'.width
  /-- What is left to the first would fit in a sub-column of the second. -/
  within : room ≤ (s'.width - column.indent).toNat
  /-- If the second has begun as many, it has no less room left. -/
  front : lead = 0 → room ≤ room'

namespace Ahead

variable {column column' : SubColumn} {room room' lead : Nat} {c : Cell}

/-- Both begin a sub-column. -/
theorem open_both {g : Text} {indent : Int} {n n' : Nat} (hn : n ≤ n')
    (hn' : n' = (s'.width - indent).toNat) (hroom : indent < s'.width) (lead : Nat) :
    Ahead s' ⟨g, indent⟩ ⟨g, indent⟩ (n - 1) (n' - 1) lead where
  indent := rfl
  fits := hroom
  within := by show n - 1 ≤ (s'.width - indent).toNat; omega
  front := fun _ => Nat.sub_le_sub_right hn 1

/-- Only the first has to begin one, and falls back. -/
theorem open_first (h : Ahead s' column column' room room' lead) (hc : c.indent = column.indent)
    {n : Nat} (hn : n ≤ (s'.width - c.indent).toNat) (room'' : Nat) :
    Ahead s' ⟨c.glyph, c.indent⟩ { column' with text := column'.text ++ c.glyph } (n - 1) room''
      (lead + 1) where
  indent := h.indent.trans hc.symm
  fits := hc ▸ h.fits
  within := by show n - 1 ≤ (s'.width - c.indent).toNat; omega
  front := fun hlead => absurd hlead (Nat.succ_ne_zero lead)

/-- Only the second has to begin one, and uses up some of its lead. -/
theorem open_second (h : Ahead s' column column' room room' lead) (hc : c.indent = column.indent)
    {n' : Nat} (hn' : n' = (s'.width - c.indent).toNat) (lead' : Nat) :
    Ahead s' { column with text := column.text ++ c.glyph } ⟨c.glyph, c.indent⟩ (room - 1)
      (n' - 1) lead' where
  indent := hc
  fits := h.fits
  within := Nat.le_trans (Nat.sub_le room 1) h.within
  front := by
    intro _
    have hwithin := h.within
    rw [← hc] at hwithin
    omega

/-- Neither has to. -/
theorem add_both (h : Ahead s' column column' room room' lead) :
    Ahead s' { column with text := column.text ++ c.glyph }
      { column' with text := column'.text ++ c.glyph } (room - 1) (room' - 1) lead where
  indent := h.indent
  fits := h.fits
  within := Nat.le_trans (Nat.sub_le room 1) h.within
  front := fun hlead => Nat.sub_le_sub_right (h.front hlead) 1

/-- **A fill that is ahead stays ahead**, so it ends with no more sub-columns. -/
theorem length_fill (hwidth : s.width ≤ s'.width) {cells : List Cell} :
    ∀ {column column' : SubColumn} {room room' lead : Nat} {halves : List SubColumn},
      Ahead s' column column' room room' lead → fill s column room cells = .ok halves →
        ∃ halves', fill s' column' room' cells = .ok halves'
          ∧ halves'.length ≤ halves.length + lead := by
  induction cells with
  | nil =>
    intro column column' room room' lead halves _ h
    cases h
    exact ⟨[column'], rfl, Nat.le_add_right _ _⟩
  | cons c rest ih =>
    intro column column' room room' lead halves hahead h
    by_cases hopens : room = 0 ∨ c.opens = true ∨ c.indent ≠ column.indent
    · obtain ⟨n, following, hn, hfollowing, rfl⟩ := (fill_cons_eq_ok_iff hopens).1 h
      obtain ⟨n', hcapacity, hle, hn', hroom⟩ := Settings.exists_capacity hwidth hn
      by_cases hopens' : room' = 0 ∨ c.opens = true ∨ c.indent ≠ column'.indent
      · obtain ⟨following', hfollowing', hlength⟩ := ih (open_both hle hn' hroom lead) hfollowing
        refine ⟨column' :: following', ?_, by rw [List.length_cons, List.length_cons]; omega⟩
        exact (fill_cons_eq_ok_iff hopens').2 ⟨n', _, hcapacity, hfollowing', rfl⟩
      · have hc : c.indent = column.indent := by
          rw [not_or, not_or, Decidable.not_not] at hopens'
          exact hopens'.2.2.trans hahead.indent
        obtain ⟨halves', hhalves', hlength⟩ :=
          ih (hahead.open_first hc (hn' ▸ hle) (room' - 1)) hfollowing
        refine ⟨halves', ?_, by rw [List.length_cons]; omega⟩
        rwa [fill_cons_of_room hopens']
    · rw [fill_cons_of_room hopens] at h
      rw [not_or, not_or, Decidable.not_not] at hopens
      obtain ⟨hroom, hcontinues, hc⟩ := hopens
      by_cases hopens' : room' = 0 ∨ c.opens = true ∨ c.indent ≠ column'.indent
      · -- had it begun as many sub-columns, the second one would have room left as well
        have hlead : lead ≠ 0 := by
          intro hlead
          have hfront := hahead.front hlead
          rcases hopens' with hfull | hparted | hparted
          · omega
          · exact hcontinues hparted
          · exact hparted (hc.trans hahead.indent.symm)
        obtain ⟨following', hfollowing', hlength⟩ := ih (hahead.open_second hc rfl (lead - 1)) h
        refine ⟨column' :: following', ?_, by rw [List.length_cons]; omega⟩
        exact (fill_cons_eq_ok_iff hopens').2
          ⟨_, _, Settings.capacity_of_lt (hc ▸ hahead.fits), hfollowing', rfl⟩
      · rw [fill_cons_of_room hopens']
        exact ih hahead.add_both h

end Ahead

theorem yieldsNoMore_packCells (hwidth : s.width ≤ s'.width) (cells : List Cell) :
    YieldsNoMore (packCells s cells) (packCells s' cells) := by
  cases cells with
  | nil => exact .refl _
  | cons c rest =>
    intro halves h
    obtain ⟨n, hn, h⟩ := bind_eq_ok.1 h
    obtain ⟨n', hcapacity, hle, hn', hroom⟩ := Settings.exists_capacity hwidth hn
    obtain ⟨halves', hhalves', hlength⟩ :=
      (Ahead.open_both hle hn' hroom 0).length_fill hwidth h
    exact ⟨halves', bind_eq_ok.2 ⟨n', hcapacity, hhalves'⟩, hlength⟩

/-- Two sub-columns a column, and one for the last if it is odd. -/
theorem length_pair : ∀ halves : List SubColumn, (pair halves).length = (halves.length + 1) / 2
  | [] => rfl
  | [right] => by rw [pair, List.length_singleton, List.length_singleton]
  | right :: left :: rest => by
    rw [pair, List.length_cons, length_pair rest, List.length_cons, List.length_cons]
    omega

theorem yieldsNoMore_runColumns (hwidth : s.width ≤ s'.width) (run : List Gloss) :
    YieldsNoMore (runColumns s run) (runColumns s' run) := by
  refine (yieldsNoMore_packCells hwidth _).map fun halves halves' hle => ?_
  rw [List.length_map, List.length_map, length_pair, length_pair]
  omega

/-! ## §4. The layout. -/

theorem Stretch.yieldsNoMore_columns (hwidth : s.width ≤ s'.width) (r : Stretch) :
    YieldsNoMore (r.columns s) (r.columns s') := by
  cases r with
  | run glosses => exact yieldsNoMore_runColumns hwidth glosses
  | block b =>
    cases b with
    | text t indent => exact yieldsNoMore_lineColumns hwidth t indent
    | entry level t => exact yieldsNoMore_lineColumns hwidth t level
    | paragraph p => exact p.yieldsNoMore_columns hwidth
    | gloss a => exact yieldsNoMore_runColumns hwidth [a]
    | chapter title => exact .refl _
    | newPage => exact .refl _
    | stamp markup => exact .refl _

/-- **A wider grid never hurts.**  Blocks that have a layout have one on every wider grid,
and there it has no more columns. -/
theorem layout_wider (s s' : Settings) (hwidth : s.width ≤ s'.width) (blocks : List Block)
    {columns : List Column} (h : layout s blocks = .ok columns) :
    ∃ columns', layout s' blocks = .ok columns' ∧ columns'.length ≤ columns.length :=
  YieldsNoMore.mapM_flatten (Stretch.yieldsNoMore_columns hwidth) (stretches blocks) columns h

/-- A paragraph, and two glosses of which the second one begins with a break. -/
def narrowBook : List Block :=
  let segments : List Segment := [⟨utf8 "子", 0, true⟩, ⟨utf8 "丑", 1, true⟩]
  [.paragraph { text := utf8 "甲乙丙丁戊", indent := 0, firstIndent := 1 },
    .gloss { text := utf8 "己庚辛壬", indent := 1 },
    .gloss { text := utf8 "子丑", indent := 1, segments }]

/-- It has four columns on a grid of three places, so it has a layout, and no more columns,
on one of four. -/
theorem layout_narrowBook :
    let narrow : Settings := { Settings.standard with width := 3 }
    let wide : Settings := { Settings.standard with width := 4 }
    narrow.width ≤ wide.width
      ∧ ∃ columns, layout narrow narrowBook = .ok columns ∧ columns.length = 4
        ∧ ∃ columns', layout wide narrowBook = .ok columns' ∧ columns'.length ≤ columns.length := by
  intro narrow wide
  have hwidth : narrow.width ≤ wide.width := by decide
  have hlayout : layout narrow narrowBook
      = .ok [.single (utf8 "甲乙") 1, .single (utf8 "丙丁戊") 0,
        .dual { indent := 1, right := utf8 "己庚", left := utf8 "辛壬" },
        .dual { indent := 1, right := utf8 "子", left := utf8 "丑", leftIndent := some 2 }] := by
    decide +kernel
  exact ⟨hwidth, _, hlayout, rfl, layout_wider narrow wide hwidth narrowBook hlayout⟩

end FolioGrid
