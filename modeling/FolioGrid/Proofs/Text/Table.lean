/-
  FolioGrid.Proofs.Text.Table
  ────────────────────────────────
  **WHAT A TABLE HOLDS.**

  A table is made by writing entries one after the other.  Its keys are in order and
  none stands twice (`Table.Sorted`), so that what it holds is what is found in it; and
  what is found is what was written last (`Table.get?_ofList`).

  Main result: `Table.mem_ofList_iff`.
-/
import FolioGrid.Text.Table
import Mathlib.Data.List.Induction

namespace FolioGrid.Text.Table

variable {table : Table} {key value k v : Text} {entries : List (Text × Text)}

/-! ## §1. Order. -/

/-- A table whose keys are in order, each of which stands once. -/
def Sorted (table : Table) : Prop := table.entries.Pairwise fun e e' => e.1 < e'.1

/-- Writing an entry brings no other one in. -/
theorem mem_insert_go {e : Text × Text} (h : e ∈ insert.go key value entries) :
    e = (key, value) ∨ e ∈ entries := by
  induction entries with
  | nil => exact Or.inl (List.mem_singleton.1 h)
  | cons entry rest ih =>
    unfold insert.go at h
    split at h
    · exact List.mem_cons.1 h
    split at h
    · rcases List.mem_cons.1 h with h | h
      · exact Or.inl h
      · exact Or.inr (List.mem_cons_of_mem entry h)
    · rcases List.mem_cons.1 h with rfl | h
      · exact Or.inr List.mem_cons_self
      · exact (ih h).imp_right (List.mem_cons_of_mem entry)

/-- **Writing an entry keeps the keys in order.** -/
theorem Sorted.insert (h : table.Sorted) (key value : Text) : (table.insert key value).Sorted := by
  obtain ⟨entries⟩ := table
  show (insert.go key value entries).Pairwise _
  change entries.Pairwise _ at h
  induction entries with
  | nil => exact List.pairwise_singleton _ _
  | cons entry rest ih =>
    obtain ⟨hfirst, hrest⟩ := List.pairwise_cons.1 h
    unfold insert.go
    split
    · next hlt =>
      -- in front of the first larger key, and so of all behind it
      refine List.pairwise_cons.2 ⟨?_, h⟩
      intro e he
      rcases List.mem_cons.1 he with rfl | he
      · exact hlt
      · exact List.lt_trans hlt (hfirst e he)
    split
    · next heq =>
      refine List.pairwise_cons.2 ⟨?_, hrest⟩
      intro e he
      show key < e.1
      rw [heq]
      exact hfirst e he
    · next hlt hne =>
      refine List.pairwise_cons.2 ⟨?_, ih hrest⟩
      intro e he
      rcases mem_insert_go he with rfl | he
      · exact Std.lt_of_le_of_ne (List.not_lt.1 hlt) (Ne.symm hne)
      · exact hfirst e he

/-- The last entry of a list is inserted last. -/
theorem ofList_concat (entries : List (Text × Text)) (entry : Text × Text) :
    ofList (entries ++ [entry]) = (ofList entries).insert entry.1 entry.2 := by
  unfold ofList insertAll
  rw [List.foldl_append]
  rfl

/-- A table that is made entry by entry is sorted. -/
theorem sorted_ofList (entries : List (Text × Text)) : (ofList entries).Sorted := by
  induction entries using List.reverseRecOn with
  | nil => exact List.Pairwise.nil
  | append_singleton entries entry ih =>
    rw [ofList_concat]
    exact ih.insert entry.1 entry.2

/-! ## §2. Entries. -/

/-- An entry of a sorted table is the one that its key is looked up by. -/
theorem Sorted.mem_iff (h : table.Sorted) : (k, v) ∈ table.entries ↔ table.get? k = some v := by
  obtain ⟨entries⟩ := table
  change entries.Pairwise _ at h
  show _ ↔ (entries.find? fun entry => entry.1 = k).map (·.2) = some v
  induction entries with
  | nil => simp
  | cons entry rest ih =>
    obtain ⟨hfirst, hrest⟩ := List.pairwise_cons.1 h
    rw [List.mem_cons, List.find?_cons]
    by_cases hk : entry.1 = k
    · -- behind its key there are larger ones only
      have hnone : (k, v) ∉ rest := by
        intro hmem
        have hlt := hfirst _ hmem
        rw [hk] at hlt
        exact List.lt_irrefl k hlt
      simp only [hk, decide_true, Option.map_some, Option.some.injEq, hnone, or_false]
      constructor
      · rintro rfl
        rfl
      · rintro rfl
        rw [← hk]
    · have hne : (k, v) ≠ entry := by
        rintro rfl
        exact hk rfl
      simp only [hk, decide_false, hne, false_or]
      exact ih hrest

/-- The value in the last entry of a key. -/
def lastValue? (entries : List (Text × Text)) (key : Text) : Option Text :=
  (entries.filter fun entry => entry.1 = key).getLast?.map (·.2)

/-- An entry at the end counts for its key and for no other. -/
theorem lastValue?_concat (entries : List (Text × Text)) (entry : Text × Text) (k : Text) :
    lastValue? (entries ++ [entry]) k
      = if k = entry.1 then some entry.2 else lastValue? entries k := by
  unfold lastValue?
  rw [List.filter_append]
  by_cases hk : entry.1 = k
  · simp [hk]
  · simp [hk, Ne.symm hk]

/-- What was written last for a key is found. -/
theorem get?_ofList (entries : List (Text × Text)) (k : Text) :
    (ofList entries).get? k = lastValue? entries k := by
  induction entries using List.reverseRecOn with
  | nil => rfl
  | append_singleton entries entry ih => rw [ofList_concat, get?_insert, lastValue?_concat, ih]

/-- **The table of some entries holds the last value of each key**, and nothing else. -/
theorem mem_ofList_iff (entries : List (Text × Text)) (k v : Text) :
    (k, v) ∈ (ofList entries).entries ↔ lastValue? entries k = some v := by
  rw [(sorted_ofList entries).mem_iff, get?_ofList]

end FolioGrid.Text.Table
