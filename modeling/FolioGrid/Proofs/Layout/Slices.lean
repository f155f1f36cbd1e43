/-
  FolioGrid.Proofs.Layout.Slices
  ────────────────────────────────
  **A PARAGRAPH IN SLICES.**

  A paragraph is cut into slices, one a column.  The first one has the first
  column's room and all others that of the columns below; each is full but the last,
  which holds one glyph at least.  So the length of the paragraph alone says how many
  columns there are.

  Main result: `Paragraph.columns_eq_slices`.  Glyphs are counted in the slices as they
  stand on the grid: a slice has no others than those that were put there, whatever
  the bytes of the paragraph are.
-/
import FolioGrid.Proofs.Layout.Items
import FolioGrid.Proofs.Text.GlyphLists
import Mathlib.Algebra.Order.Floor.Div

namespace FolioGrid

open FolioGrid.Text

/-! ## §1. Chunks. -/

section

variable {α : Type} {n : Nat}

/-- Nothing falls into no chunks. -/
theorem chunks_nil (n : Nat) : chunks n ([] : List α) = [] := by
  cases n <;> simp [chunks]

/-- A chunk holds some of the elements, in their order. -/
theorem sublist_of_mem_chunks {l c : List α} (h : c ∈ chunks n l) : c.Sublist l := by
  by_cases hn : n = 0
  · simp [hn, chunks] at h
  · have hflatten := List.sublist_flatten_of_mem h
    rwa [flatten_chunks (by omega)] at hflatten

/-- As many chunks as it takes. -/
theorem length_chunks (hn : 0 < n) (l : List α) : (chunks n l).length = l.length ⌈/⌉ n := by
  rw [Nat.ceilDiv_eq_add_pred_div]
  induction n, l using chunks.induct with
  | case1 l => omega
  | case2 n _ =>
    rw [List.length_nil, Nat.div_eq_of_lt (by omega), chunks_nil, List.length_nil]
  | case3 n a rest ih =>
    rw [chunks, List.length_cons, ih hn, List.length_drop, List.length_cons]
    by_cases hmore : n < rest.length
    · -- what is left is shorter by one chunk
      rw [show rest.length + 1 + (n + 1) - 1 = rest.length - n + (n + 1) - 1 + (n + 1) by omega,
        Nat.add_div_right _ hn]
    · rw [show rest.length - n + (n + 1) - 1 = n by omega, Nat.div_eq_of_lt (Nat.lt_succ_self n)]
      rw [show rest.length + 1 + (n + 1) - 1 = rest.length + (n + 1) by omega,
        Nat.add_div_right _ hn, Nat.div_eq_of_lt (by omega)]

/-- Chunks are full, but the last one, which is not empty. -/
theorem length_of_getElem?_chunks {l c : List α} {i : Nat} (h : (chunks n l)[i]? = some c) :
    1 ≤ c.length ∧ c.length ≤ n ∧ (i + 1 < (chunks n l).length → c.length = n) := by
  induction n, l using chunks.induct generalizing i with
  | case1 l => simp [chunks] at h
  | case2 n _ => simp [chunks] at h
  | case3 n a rest ih =>
    rw [chunks] at h ⊢
    cases i with
    | zero =>
      rw [List.getElem?_cons_zero, Option.some.injEq] at h
      subst h
      rw [List.length_cons, List.length_cons, List.length_take]
      refine ⟨by omega, by omega, ?_⟩
      intro hmore
      -- a second chunk means that the first took its full share
      have hdrop : rest.drop n ≠ [] := by
        rintro hnil
        simp [hnil, chunks_nil] at hmore
      have hlen : n < rest.length := by
        by_contra hle
        exact hdrop (List.drop_eq_nil_iff.2 (by omega))
      omega
    | succ i =>
      rw [List.getElem?_cons_succ] at h
      obtain ⟨hpos, hle, hfull⟩ := ih h
      refine ⟨hpos, hle, ?_⟩
      intro hmore
      rw [List.length_cons] at hmore
      exact hfull (by omega)

end

/-! ## §2. Paragraphs. -/

/-- The indent of a paragraph's column by its number. -/
def Paragraph.indentAt (p : Paragraph) (i : Nat) : Int := if i = 0 then p.firstIndent else p.indent

variable {s : Settings}

/-- Below an indent that leaves room, a column holds as many glyphs as there is room. -/
theorem Settings.capacity_of_lt {indent : Int} (h : indent < s.width) :
    s.capacity indent = .ok (s.width - indent).toNat := by
  unfold Settings.capacity Settings.roomAt
  rw [if_neg (by omega)]

/-- The slices of a paragraph's glyphs: what the first column takes, and chunks of what
it leaves to those below. -/
def Paragraph.slices (p : Paragraph) (s : Settings) : List (List Text) :=
  let first := (s.width - p.firstIndent).toNat
  (glyphs p.text).take first :: chunks (s.width - p.indent).toNat ((glyphs p.text).drop first)

/-- Where there is room, each slice has a column. -/
theorem Paragraph.columns_eq_ok {p : Paragraph} (words : 1 ≤ (glyphs p.text).length)
    (hfirst : p.firstIndent < s.width)
    (hlater : s.width - p.firstIndent < (glyphs p.text).length → p.indent < s.width) :
    p.columns s = .ok ((p.slices s).mapIdx fun i c => .single c.flatten (p.indentAt i)) := by
  have hbelow : ∀ cs : List (List Text),
      (cs.mapIdx fun i c => Column.single c.flatten (p.indentAt (i + 1)))
        = cs.map fun c => Column.single c.flatten p.indent := by
    intro cs
    apply List.ext_getElem?
    intro i
    simp [Paragraph.indentAt]
  unfold Paragraph.columns Paragraph.slices
  dsimp only
  cases hg : glyphs p.text with
  | nil => simp [hg] at words
  | cons g gs =>
    rw [hg] at hlater
    rw [List.mapIdx_cons, hbelow]
    simp only [Settings.capacity_of_lt hfirst, bind, Except.bind]
    split
    · next hnil =>
      rw [hnil, chunks_nil]
      rfl
    · next hne =>
      -- glyphs are left, so the indent of the columns below has room as well
      have hmore : ¬ (g :: gs).length ≤ (s.width - p.firstIndent).toNat := by
        intro hle
        exact hne (List.drop_eq_nil_iff.2 hle)
      rw [Settings.capacity_of_lt (hlater (by omega))]
      rfl

/-- All glyphs of a slice have been glyphs of the paragraph. -/
theorem Paragraph.sublist_of_mem_slices {p : Paragraph} {c : List Text} (h : c ∈ p.slices s) :
    c.Sublist (glyphs p.text) := by
  rcases List.mem_cons.1 h with rfl | h
  · exact List.take_sublist _ _
  · exact (sublist_of_mem_chunks h).trans (List.drop_sublist _ _)

/-- Slices have room in their columns and fill it, but the last one, which has a glyph. -/
theorem Paragraph.length_of_getElem?_slices {p : Paragraph} {c : List Text} {i : Nat}
    (words : 1 ≤ (glyphs p.text).length) (hfirst : p.firstIndent < s.width)
    (h : (p.slices s)[i]? = some c) :
    1 ≤ c.length ∧ c.length ≤ (s.width - p.indentAt i).toNat
      ∧ (i + 1 < (p.slices s).length → c.length = (s.width - p.indentAt i).toNat) := by
  unfold Paragraph.slices at h ⊢
  dsimp only at h ⊢
  rw [List.length_cons]
  cases i with
  | zero =>
    rw [List.getElem?_cons_zero, Option.some.injEq] at h
    rw [← h, List.length_take, show p.indentAt 0 = p.firstIndent from rfl]
    refine ⟨by omega, by omega, ?_⟩
    intro hmore
    -- a column below means that the first one is full
    by_contra hshort
    rw [List.drop_eq_nil_iff.2 (by omega), chunks_nil, List.length_nil] at hmore
    omega
  | succ i =>
    rw [List.getElem?_cons_succ] at h
    obtain ⟨hpos, hle, hfull⟩ := length_of_getElem?_chunks h
    rw [show p.indentAt (i + 1) = p.indent from rfl]
    exact ⟨hpos, hle, fun hmore => hfull (by omega)⟩

/-- **How many columns a paragraph takes**: one, and as many more as what is left fills. -/
theorem Paragraph.length_slices {p : Paragraph}
    (hlater : s.width - p.firstIndent < (glyphs p.text).length → p.indent < s.width) :
    (p.slices s).length =
      if ((glyphs p.text).length : Int) ≤ s.width - p.firstIndent then 1
      else 1 + ((glyphs p.text).length - (s.width - p.firstIndent).toNat)
        ⌈/⌉ (s.width - p.indent).toNat := by
  unfold Paragraph.slices
  dsimp only
  rw [List.length_cons]
  split
  · next hle => rw [List.drop_eq_nil_iff.2 (by omega), chunks_nil, List.length_nil]
  · next hmore =>
    have hroom := hlater (by omega)
    rw [length_chunks (by omega), List.length_drop, Nat.add_comm]

/-- **The slices of a paragraph are its glyphs.** -/
theorem Paragraph.flatten_slices {p : Paragraph}
    (hlater : s.width - p.firstIndent < (glyphs p.text).length → p.indent < s.width) :
    (p.slices s).flatten = glyphs p.text := by
  unfold Paragraph.slices
  dsimp only
  rw [List.flatten_cons]
  by_cases hmore : s.width - p.firstIndent < (glyphs p.text).length
  · have hroom := hlater hmore
    rw [flatten_chunks (by omega), List.take_append_drop]
  · rw [List.take_of_length_le (by omega), List.drop_of_length_le (by omega), chunks_nil,
      List.flatten_nil, List.append_nil]

/-- **A paragraph fills its columns.**  Of a paragraph that has words, room in its first
column, and room in those below if it does not end in the first, the length says how many
columns there are.  They hold the paragraph's text, in order, the first at the first
column's indent and all others at that of the columns below; and of the glyphs that each
one shows there are as many as it has room for, but for the last, which may have fewer,
and has one at least. -/
theorem Paragraph.columns_eq_slices (s : Settings) (p : Paragraph)
    (words : 1 ≤ (glyphs p.text).length) (hfirst : p.firstIndent < s.width)
    (hlater : s.width - p.firstIndent < (glyphs p.text).length → p.indent < s.width) :
    ∃ texts : List Text,
      p.columns s = .ok (texts.mapIdx fun i t => .single t (p.indentAt i))
        ∧ texts.length =
          (if ((glyphs p.text).length : Int) ≤ s.width - p.firstIndent then 1
          else 1 + ((glyphs p.text).length - (s.width - p.firstIndent).toNat)
            ⌈/⌉ (s.width - p.indent).toNat)
        ∧ texts.flatten = p.text
        ∧ ∀ i t, texts[i]? = some t →
          1 ≤ (glyphs t).length
            ∧ ((glyphs t).length : Int) ≤ s.width - p.indentAt i
            ∧ (i + 1 < texts.length → ((glyphs t).length : Int) = s.width - p.indentAt i) := by
  refine ⟨(p.slices s).map List.flatten, ?_, ?_, ?_, ?_⟩
  · rw [Paragraph.columns_eq_ok words hfirst hlater]
    apply congrArg Except.ok
    apply List.ext_getElem?
    intro i
    simp [Function.comp_def]
  · rw [List.length_map, Paragraph.length_slices hlater]
  · rw [← List.flatten_flatten, Paragraph.flatten_slices hlater, flatten_glyphs]
  · intro i t ht
    rw [List.getElem?_map, Option.map_eq_some_iff] at ht
    obtain ⟨c, hc, rfl⟩ := ht
    -- what a slice shows are the glyphs that were put there
    rw [glyphs_flatten_of_sublist (sublist_of_mem_slices (List.mem_of_getElem? hc)),
      List.length_map]
    obtain ⟨hpos, hle, hfull⟩ := Paragraph.length_of_getElem?_slices words hfirst hc
    refine ⟨hpos, by omega, ?_⟩
    intro hmore
    have := hfull hmore
    omega

/-- A paragraph of five glyphs, the last of them cut off. -/
def brokenOffParagraph : Paragraph where
  text := utf8 "甲乙丙丁" ++ [0xE6, 0x88]
  indent := 1
  firstIndent := 2

/-- On a grid of four places, two of its glyphs stand in the first column, and three below. -/
theorem columns_brokenOffParagraph :
    let s : Settings := { Settings.standard with width := 4 }
    let p := brokenOffParagraph
    (1 ≤ (glyphs p.text).length ∧ p.firstIndent < s.width
        ∧ (s.width - p.firstIndent < (glyphs p.text).length → p.indent < s.width))
      ∧ ∃ texts : List Text,
        p.columns s = .ok (texts.mapIdx fun i t => .single t (p.indentAt i))
          ∧ texts.length = 2 ∧ texts.flatten = p.text
          ∧ ∀ t, texts[0]? = some t → ((glyphs t).length : Int) = 2 := by
  intro s p
  have hlength : (glyphs p.text).length = 5 := by decide +kernel
  have hyps : 1 ≤ (glyphs p.text).length ∧ p.firstIndent < s.width
      ∧ (s.width - p.firstIndent < (glyphs p.text).length → p.indent < s.width) :=
    ⟨by rw [hlength]; decide, by decide, fun _ => by decide⟩
  obtain ⟨texts, hcolumns, hcount, htext, hglyphs⟩ :=
    Paragraph.columns_eq_slices s p hyps.1 hyps.2.1 hyps.2.2
  have htwo : texts.length = 2 := by
    rw [hcount, hlength]
    decide
  refine ⟨hyps, texts, hcolumns, htwo, htext, ?_⟩
  intro t ht
  exact (hglyphs 0 t ht).2.2 (by omega)

end FolioGrid
