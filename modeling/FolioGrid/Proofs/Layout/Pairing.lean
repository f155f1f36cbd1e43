/-
  FolioGrid.Proofs.Layout.Pairing
  ────────────────────────────────
  **HALVES IN PAIRS.**

  Dual columns are read from the right.  What is read from them is the sub-columns of
  which they were made, each at its own indent, and so no pair hides where a half
  stood: an indent is written for a left half only where it differs, and the one
  column that may lack a left half is the last.

      DualColumn.subColumns — the halves of a column, as they are read
      DualColumn.ofRight    — the column of a right half and perhaps a left one
      getElem?_pair         — the column at a place, from the halves at two places

  Main result: `subColumns_pair`.
-/
import FolioGrid.Proofs.Layout.Widths

namespace FolioGrid

open FolioGrid.Text

variable {right left half : SubColumn} {left? : Option SubColumn}

/-! ## §1. Reading a column. -/

/-- The halves of a dual column, the right one first.  A left half without words is
none, and one without an indent of its own stands at that of the column. -/
def DualColumn.subColumns (d : DualColumn) : List SubColumn :=
  ⟨d.right, d.indent⟩ :: if d.left = [] then [] else [⟨d.left, d.leftIndent.getD d.indent⟩]

/-- The indent of the left half can be read off, whether or not it is written. -/
theorem DualColumn.leftIndent_getD_ofHalves (right left : SubColumn) :
    (ofHalves right left).leftIndent.getD right.indent = left.indent := by
  show (if left.indent = right.indent then none else some left.indent).getD right.indent = _
  split
  · next hsame => exact hsame.symm
  · rfl

theorem DualColumn.subColumns_ofHalves (hleft : left.text ≠ []) (right : SubColumn) :
    (ofHalves right left).subColumns = [right, left] := by
  unfold subColumns
  rw [if_neg (show (ofHalves right left).left ≠ [] from hleft)]
  show [right, ⟨left.text, (ofHalves right left).leftIndent.getD right.indent⟩] = _
  rw [leftIndent_getD_ofHalves]

/-- **What is paired is read back.** -/
theorem flatMap_subColumns_pair :
    ∀ {halves : List SubColumn}, (∀ half ∈ halves, half.text ≠ []) →
      (pair halves).flatMap DualColumn.subColumns = halves
  | [], _ => rfl
  | [_], _ => rfl
  | right :: left :: rest, hwords => by
    have hleft : left.text ≠ [] := hwords left (by simp)
    have hrest : ∀ half ∈ rest, half.text ≠ [] := by
      intro half hhalf
      exact hwords half (by simp [hhalf])
    rw [pair, List.flatMap_cons, DualColumn.subColumns_ofHalves hleft,
      flatMap_subColumns_pair hrest]
    rfl

/-! ## §2. The column at a place. -/

/-- The column of a right half, and of a left one if there is any. -/
def DualColumn.ofRight (right : SubColumn) : Option SubColumn → DualColumn
  | none => { indent := right.indent, right := right.text }
  | some left => .ofHalves right left

/-- A column is made of two halves that follow each other, the first of which stands at
an even place. -/
theorem getElem?_pair :
    ∀ (halves : List SubColumn) (k : Nat), (pair halves)[k]?
      = halves[2 * k]?.map fun right => DualColumn.ofRight right halves[2 * k + 1]?
  | [], k => rfl
  | [right], 0 => rfl
  | [right], k + 1 => by simp [pair, Nat.mul_add]
  | right :: left :: rest, 0 => rfl
  | right :: left :: rest, k + 1 => by
    show (pair rest)[k]? = _
    rw [getElem?_pair rest k]
    rfl

theorem DualColumn.left_ofRight_eq_nil_iff (hwords : ∀ left ∈ left?, left.text ≠ []) :
    (ofRight right left?).left = [] ↔ left? = none := by
  cases left? with
  | none => exact ⟨fun _ => rfl, fun _ => rfl⟩
  | some left =>
    constructor
    · intro hnil
      exact absurd hnil (hwords left rfl)
    · intro hnone
      cases hnone

theorem DualColumn.leftIndent_ofRight_eq_some_iff {i : Int} :
    (ofRight right left?).leftIndent = some i
      ↔ ∃ left, left? = some left ∧ left.indent ≠ right.indent ∧ i = left.indent := by
  cases left? with
  | none =>
    constructor
    · intro h
      cases h
    · rintro ⟨left, hleft, -⟩
      cases hleft
  | some left =>
    show (if left.indent = right.indent then none else some left.indent) = some i ↔ _
    rw [Option.ite_none_left_eq_some, Option.some.injEq, eq_comm (a := left.indent) (b := i)]
    simp only [Option.some.injEq, exists_eq_left', ne_eq]

theorem DualColumn.rightIndent_ofRight : (ofRight right left?).rightIndent = none := by
  cases left? <;> rfl

/-! ## §3. Pairs. -/

/-- **Pairing keeps every half, and its indent.**  Sub-columns with words make half as many
dual columns, rounded up, and these read back as the sub-columns.  A left half is missing
in the last column if the sub-columns are odd in number, and in no other; one has an
indent of its own exactly if it is not that of the right half; and no right half has. -/
theorem subColumns_pair {halves : List SubColumn} (hwords : ∀ half ∈ halves, half.text ≠ []) :
    (pair halves).length = (halves.length + 1) / 2
      ∧ (pair halves).flatMap DualColumn.subColumns = halves
      ∧ ∀ (k : Nat) (d : DualColumn), (pair halves)[k]? = some d →
        (d.left = [] ↔ k + 1 = (pair halves).length ∧ halves.length % 2 = 1)
          ∧ (∀ i, d.leftIndent = some i ↔
              ∃ right left, halves[2 * k]? = some right ∧ halves[2 * k + 1]? = some left
                ∧ left.indent ≠ right.indent ∧ i = left.indent)
          ∧ d.rightIndent = none := by
  refine ⟨length_pair halves, flatMap_subColumns_pair hwords, ?_⟩
  intro k d hd
  rw [getElem?_pair] at hd
  obtain ⟨right, hright, rfl⟩ := Option.map_eq_some_iff.1 hd
  have hplace : 2 * k < halves.length := (List.getElem?_eq_some_iff.1 hright).1
  have hleft : ∀ left ∈ halves[2 * k + 1]?, left.text ≠ [] := by
    intro left hmem
    exact hwords left (List.mem_of_getElem? hmem)
  refine ⟨?_, ?_, DualColumn.rightIndent_ofRight⟩
  · -- the next place is the first one behind the list
    rw [DualColumn.left_ofRight_eq_nil_iff hleft, List.getElem?_eq_none_iff, length_pair]
    omega
  · intro i
    rw [DualColumn.leftIndent_ofRight_eq_some_iff, hright]
    simp only [Option.some.injEq, exists_and_left, exists_eq_left']

/-- Three sub-columns of which the second stands deeper than the others. -/
def threeHalves : List SubColumn := [⟨utf8 "甲乙", 2⟩, ⟨utf8 "丙", 4⟩, ⟨utf8 "丁", 2⟩]

/-- The second keeps its indent on the left of the first, and the third stands alone. -/
theorem subColumns_pair_threeHalves :
    (∀ half ∈ threeHalves, half.text ≠ [])
      ∧ (pair threeHalves).flatMap DualColumn.subColumns = threeHalves
      ∧ (∃ d, (pair threeHalves)[0]? = some d ∧ d.leftIndent = some 4
          ∧ ∃ right left, threeHalves[0]? = some right ∧ threeHalves[1]? = some left
            ∧ left.indent ≠ right.indent ∧ 4 = left.indent)
      ∧ ∃ d, (pair threeHalves)[1]? = some d ∧ d.left = []
          ∧ 2 = (pair threeHalves).length ∧ threeHalves.length % 2 = 1 := by
  have hwords : ∀ half ∈ threeHalves, half.text ≠ [] := by decide +kernel
  obtain ⟨-, hread, hplace⟩ := subColumns_pair hwords
  obtain ⟨-, hindent, -⟩ := hplace 0 _ rfl
  obtain ⟨hlast, -, -⟩ := hplace 1 _ rfl
  exact ⟨hwords, hread, ⟨_, rfl, rfl, (hindent 4).1 rfl⟩, ⟨_, rfl, rfl, hlast.1 rfl⟩⟩

end FolioGrid
