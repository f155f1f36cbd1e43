/-
  FolioGrid.Proofs.GridMarkup.Tidy
  ────────────────────────────────
  **PAGE ENDS THAT ARE KEPT.**

  A page ends once between two columns, however often it is said, and not at all
  in front of a heading, which turns the page itself.  `tidy` drops the page ends
  that say nothing new:

      filter_tidy  — it drops page ends and nothing else
      tidy_ends    — of page ends in a row one is left, or none before a heading
      isChain_tidy — hence no page ends twice
-/
import FolioGrid.Column
import Mathlib.Data.List.Chain

namespace FolioGrid

/-- Whether a column is a chapter's heading. -/
def Column.isChapter : Column → Bool
  | .chapter _ => true
  | _ => false

/-- Whether a page ends with a column. -/
def Column.turnsPage : Column → Bool
  | .newPage => true
  | .chapter _ => true
  | _ => false

namespace GridMarkup

/-! ## §1. Columns to be written. -/

/-- The columns without the first heading, which stands in front of them all. -/
def withoutTitle (columns : List Column) : List Column := columns.eraseP Column.isChapter

/-- Put a column in front of others.  The end of a page is dropped where the page
ends anyway. -/
def putBefore (c : Column) (rest : List Column) : List Column :=
  if c = .newPage ∧ rest.head?.any Column.turnsPage = true then rest else c :: rest

/-- Columns without the page ends that are dropped. -/
def tidy (columns : List Column) : List Column := columns.foldr putBefore []

variable {c : Column} {columns rest : List Column}

theorem putBefore_of_ne (h : c ≠ .newPage) (rest : List Column) : putBefore c rest = c :: rest :=
  if_neg fun hdrop => h hdrop.1

/-- Of two page ends one is dropped, and of one in front of a heading all. -/
theorem putBefore_putBefore (rest : List Column) :
    putBefore .newPage (putBefore .newPage rest) = putBefore .newPage rest := by
  by_cases h : rest.head?.any Column.turnsPage = true
  · simp [putBefore, h]
  · simp [putBefore, h, Column.turnsPage]

theorem tidy_cons (c : Column) (rest : List Column) :
    tidy (c :: rest) = putBefore c (tidy rest) := rfl

theorem withoutTitle_subset (columns : List Column) : withoutTitle columns ⊆ columns :=
  List.eraseP_subset

/-- One heading at most stands in front of the environments. -/
theorem countP_withoutTitle (columns : List Column) :
    (withoutTitle columns).countP Column.isChapter + 1
      = max 1 (columns.countP Column.isChapter) := by
  induction columns with
  | nil => rfl
  | cons c rest ih =>
    unfold withoutTitle at ih ⊢
    by_cases hc : c.isChapter = true
    · rw [List.eraseP_cons_of_pos hc, List.countP_cons_of_pos hc]
      omega
    · rw [List.eraseP_cons_of_neg hc, List.countP_cons_of_neg hc, List.countP_cons_of_neg hc]
      exact ih

/-! ## §2. What tidying does. -/

/-- Tidying drops page ends and nothing else. -/
theorem filter_tidy {p : Column → Bool} (hp : p .newPage = false) (columns : List Column) :
    (tidy columns).filter p = columns.filter p := by
  induction columns with
  | nil => rfl
  | cons c rest ih =>
    rw [tidy_cons, List.filter_cons, ← ih]
    unfold putBefore
    split
    · next hdrop => simp [hdrop.1, hp]
    · rw [List.filter_cons]

theorem mem_of_mem_tidy (h : c ∈ tidy columns) : c ∈ columns := by
  induction columns with
  | nil => exact h
  | cons a rest ih =>
    rw [tidy_cons] at h
    unfold putBefore at h
    split at h
    · exact List.mem_cons_of_mem a (ih h)
    · rcases List.mem_cons.1 h with rfl | h
      · exact List.mem_cons_self
      · exact List.mem_cons_of_mem a (ih h)

theorem putBefore_ne_nil (c : Column) (rest : List Column) : putBefore c rest ≠ [] := by
  unfold putBefore
  split
  · next hdrop =>
    rintro rfl
    simp at hdrop
  · exact List.cons_ne_nil c rest

/-- Only the column right behind decides. -/
theorem putBefore_append (h : rest ≠ []) (c : Column) (below : List Column) :
    putBefore c (rest ++ below) = putBefore c rest ++ below := by
  unfold putBefore
  rw [List.head?_append_of_ne_nil _ h]
  split
  · rfl
  · rfl

/-- Columns that do not end with a page end are tidied by themselves. -/
theorem tidy_append {above : List Column} (h : above.getLast? ≠ some .newPage)
    (below : List Column) : tidy (above ++ below) = tidy above ++ tidy below := by
  induction above with
  | nil => rfl
  | cons c above ih =>
    cases above with
    | nil =>
      have hc : c ≠ .newPage := by simpa using h
      show putBefore c (tidy below) = putBefore c [] ++ tidy below
      rw [putBefore_of_ne hc, putBefore_of_ne hc]
      rfl
    | cons a above =>
      have htail := ih (by simpa using h)
      show putBefore c (tidy (a :: above ++ below)) = putBefore c (tidy (a :: above)) ++ tidy below
      rw [htail]
      exact putBefore_append (putBefore_ne_nil a _) c _

/-- Of page ends in a row one is left. -/
theorem tidy_ends_append {ends : List Column} (h : ∀ c ∈ ends, c = .newPage) (hne : ends ≠ [])
    (below : List Column) : tidy (ends ++ below) = putBefore .newPage (tidy below) := by
  induction ends with
  | nil => exact absurd rfl hne
  | cons c ends ih =>
    rw [h c List.mem_cons_self, List.cons_append, tidy_cons]
    cases ends with
    | nil => rfl
    | cons a ends =>
      rw [ih (fun b hb => h b (List.mem_cons_of_mem _ hb)) (List.cons_ne_nil a ends),
        putBefore_putBefore]

/-- The head of tidied columns is the head of the columns, unless that is a page end. -/
theorem head?_tidy (h : columns.head? ≠ some .newPage) : (tidy columns).head? = columns.head? := by
  cases columns with
  | nil => rfl
  | cons c rest =>
    have hc : c ≠ .newPage := by simpa using h
    rw [tidy_cons, putBefore_of_ne hc]
    rfl

/-- And their last one is the last of the columns. -/
theorem getLast?_tidy (h : columns.getLast? ≠ some .newPage) :
    (tidy columns).getLast? = columns.getLast? := by
  rcases List.eq_nil_or_concat columns with rfl | ⟨above, c, rfl⟩
  · rfl
  · rw [List.concat_eq_append] at h ⊢
    have hc : c ≠ .newPage := by simpa using h
    have hkept : ∃ kept, tidy (above ++ [c]) = kept ++ [c] := by
      clear h
      induction above with
      | nil => exact ⟨[], putBefore_of_ne hc []⟩
      | cons a above ih =>
        obtain ⟨kept, hkept⟩ := ih
        rw [List.cons_append, tidy_cons, hkept]
        unfold putBefore
        split
        · exact ⟨kept, rfl⟩
        · exact ⟨a :: kept, rfl⟩
    obtain ⟨kept, hkept⟩ := hkept
    rw [hkept, List.getLast?_concat, List.getLast?_concat]

/-- **Where page ends are kept.** What stands above and below page ends in a row is
tidied by itself, and of the row one page end is left, or none in front of a heading. -/
theorem tidy_ends {above ends below : List Column} (hends : ∀ c ∈ ends, c = .newPage)
    (habove : above.getLast? ≠ some .newPage) (hbelow : below.head? ≠ some .newPage) :
    tidy (above ++ ends ++ below) = tidy above
      ++ (if ends = [] ∨ below.head?.any Column.isChapter = true then [] else [.newPage])
      ++ tidy below := by
  rw [List.append_assoc, tidy_append habove, List.append_assoc]
  congr 1
  by_cases hne : ends = []
  · simp [hne]
  · rw [tidy_ends_append hends hne]
    have hturns : (tidy below).head?.any Column.turnsPage = below.head?.any Column.isChapter := by
      rw [head?_tidy hbelow]
      rcases below with _ | ⟨_ | _ | _ | _ | _, below⟩
      · rfl
      · rfl
      · exact absurd rfl hbelow
      · rfl
      · rfl
      · rfl
    simp only [putBefore, hturns, hne, true_and, false_or]
    split
    · rfl
    · rfl

/-- In tidied columns a page does not end twice. -/
theorem isChain_tidy (columns : List Column) :
    (tidy columns).IsChain fun a b => a = .newPage → b.turnsPage = false := by
  induction columns with
  | nil => exact List.IsChain.nil
  | cons c rest ih =>
    rw [tidy_cons]
    unfold putBefore
    split
    · exact ih
    · next hkeep =>
      rw [List.isChain_cons]
      refine ⟨?_, ih⟩
      intro b hb hc
      simpa [hc, show (tidy rest).head? = some b from hb] using hkeep

end GridMarkup

end FolioGrid
