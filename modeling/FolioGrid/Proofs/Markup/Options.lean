/-
  FolioGrid.Proofs.Markup.Options
  ────────────────────────────────
  **OPTIONS THAT WERE WRITTEN ARE FOUND.**

  A list of two options is read as the table of the two, whatever blanks stand
  around keys and values.
-/
import FolioGrid.Markup.Options
import FolioGrid.Proofs.Text.Lines
import Mathlib.Data.List.TakeDrop

namespace FolioGrid.Markup

open FolioGrid.Text

/-- The equals sign, which ends a key. -/
def equalsSign : UInt8 := ascii '='

/-- The comma, which ends an option. -/
def comma : UInt8 := ascii ','

variable {k v l w : Text}

/-- A key ends at the first equals sign. -/
theorem optionEntry_append (h : equalsSign ∉ k) :
    optionEntry (k ++ equalsSign :: v) = (trim k, trim v) := by
  have hkey : ∀ b ∈ k, (b != ascii '=') = true := by
    intro b hb
    rw [bne_iff_ne]
    rintro rfl
    exact h hb
  have hspan : (k ++ equalsSign :: v).span (· != ascii '=') = (k, equalsSign :: v) := by
    rw [List.span_eq_takeWhile_dropWhile, List.takeWhile_append_of_pos hkey,
      List.dropWhile_append_of_pos hkey, List.takeWhile_cons_of_neg (by decide),
      List.dropWhile_cons_of_neg (by decide), List.append_nil]
  unfold optionEntry
  rw [hspan]
  rfl

/-- Two options make a table of two entries. -/
theorem optionTable_pair {item next : Text} (hitem : comma ∉ item) (hnext : comma ∉ next)
    (hk : equalsSign ∉ k) (hl : equalsSign ∉ l) (heq : trim item = k ++ equalsSign :: v)
    (hnexteq : trim next = l ++ equalsSign :: w) :
    optionTable (item ++ comma :: next)
      = (Table.empty.insert (trim k) (trim v)).insert (trim l) (trim w) := by
  have hpieces : pieces (ascii ',') (item ++ comma :: next) = [item, next] := by
    show pieces comma (item ++ comma :: next) = _
    rw [pieces_append_cons, pieces_of_not_mem hitem, pieces_of_not_mem hnext]
    rfl
  have hfilter : [trim item, trim next].filter (· ≠ []) = [trim item, trim next] := by
    rw [List.filter_eq_self]
    intro t ht
    rw [heq, hnexteq] at ht
    rcases List.mem_cons.1 ht with rfl | ht
    · simp
    · rw [List.mem_singleton.1 ht]
      simp
  unfold optionTable
  rw [hpieces, List.map_cons, List.map_cons, List.map_nil, hfilter, List.map_cons, List.map_cons,
    heq, hnexteq, optionEntry_append hk, optionEntry_append hl]
  rfl

end FolioGrid.Markup
