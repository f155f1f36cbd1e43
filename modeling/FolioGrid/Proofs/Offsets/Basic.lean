/-
  FolioGrid.Proofs.Offsets.Basic
  ────────────────────────────────
  **TEXTS BY OFFSETS.**

  A reader that keeps a text in one piece knows its places by offsets, and each
  access by them may go wrong: an offset may lie beyond the end, and a difference
  of two may be negative.  The modules of this folder state the steps of a
  conversion once more in that way, with every access checked, and prove that no
  check fails and that the results are the same.

      itemAt, slice, sliceFrom, standsAt  — checked accesses
      erase, lastOf, popLast, difference
      find?, findLast?                    — searches
      Rest l i u                          — what `l` reads from offset `i` on

  A function is compared with the one of the library by what a text reads from an
  offset on; the lemmas of §3 say what each access does there.
-/
import FolioGrid.Failure
import FolioGrid.Proofs.Text.Occurrence
import Mathlib.Data.List.Infix
import Mathlib.Data.List.TakeWhile

namespace FolioGrid.Offsets

open FolioGrid.Text

/-! ## §1. Faults. -/

/-- Why a checked computation stops. -/
inductive Fault where
  /-- An offset lies beyond the end. -/
  | beyondEnd
  /-- A difference of offsets is negative. -/
  | negative
  /-- A line is read where none is left. -/
  | noLine
  /-- What is read as a number is no numeral. -/
  | noNumeral
  /-- A numeral is too large to be counted. -/
  | tooLarge
  /-- A loop does not come nearer to its end. -/
  | stuck
  /-- The conversion fails. -/
  | refused (failure : Failure)
  deriving DecidableEq, Repr

/-- A computation in which each access is checked. -/
abbrev Checked := Except Fault

/-- A computation that may fail as conversions do. -/
def refusing {α : Type} : Except Failure α → Checked α
  | .ok a => .ok a
  | .error failure => .error (.refused failure)

section

variable {α β : Type}

@[simp] theorem ok_bind (a : α) (f : α → Checked β) : (Except.ok a >>= f) = f a := rfl

@[simp] theorem pure_eq_ok (a : α) : (pure a : Checked α) = .ok a := rfl

@[simp] theorem refusing_ok (a : α) : refusing (.ok a) = .ok a := rfl

/-- A failure of the conversion ends the steps in which it is refused, as it ends the
conversion. -/
theorem refusing_bind (x : Except Failure α) (f : α → Except Failure β) :
    refusing (x >>= f) = refusing x >>= fun a => refusing (f a) := by
  cases x with
  | error failure => rfl
  | ok a => rfl

/-! ## §2. Accesses. -/

/-- The element at an offset. -/
def itemAt (l : List α) (i : Nat) : Checked α :=
  match l[i]? with
  | some a => .ok a
  | none => .error .beyondEnd

/-- So many elements from an offset on, or as many as there are. -/
def slice (l : List α) (start count : Nat) : Checked (List α) :=
  if start ≤ l.length then .ok ((l.drop start).take count) else .error .beyondEnd

/-- All elements from an offset on. -/
def sliceFrom (l : List α) (start : Nat) : Checked (List α) :=
  if start ≤ l.length then .ok (l.drop start) else .error .beyondEnd

/-- A list without so many elements from an offset on. -/
def erase (l : List α) (start count : Nat) : Checked (List α) :=
  if start ≤ l.length then .ok (l.take start ++ l.drop (start + count)) else .error .beyondEnd

/-- How far one offset lies behind another. -/
def difference (a b : Nat) : Checked Nat := if b ≤ a then .ok (a - b) else .error .negative

/-- The last element. -/
def lastOf (l : List α) : Checked α := do
  let i ← difference l.length 1
  itemAt l i

/-- A list without its last element. -/
def popLast : List α → Checked (List α)
  | [] => .error .beyondEnd
  | a :: l => .ok (a :: l).dropLast

end

-- a slice may end early, but not start beyond the end
example : slice (utf8 "甲") 3 1 = .ok [] ∧ slice (utf8 "甲") 4 1 = .error .beyondEnd := ⟨rfl, rfl⟩

/-- Whether a pattern stands at an offset. -/
def standsAt (pattern t : Text) (i : Nat) : Checked Bool := do
  let part ← slice t i pattern.length
  pure (decide (part = pattern))

/-- The first offset, from some offset on, at which a pattern stands. -/
def find? (pattern t : Text) (start : Nat) : Option Nat :=
  if start ≤ t.length then (cut? pattern (t.drop start)).map fun c => start + c.before.length
  else none

/-- The last offset at which a byte stands. -/
def findLast? (b : UInt8) (t : Text) : Option Nat := (beforeLast? b t).map (·.length)

/-! ## §3. What a list reads from an offset on. -/

/-- Two offsets that stand in order have a difference. -/
theorem difference_of_le {a b : Nat} (h : b ≤ a) : difference a b = .ok (a - b) := if_pos h

/-- How much longer an offset is that lies so much farther. -/
@[simp] theorem difference_add (a n : Nat) : difference (a + n) a = .ok n := by
  rw [difference_of_le (Nat.le_add_right a n), Nat.add_sub_cancel_left]

/-- From offset `i` on, the list `l` reads `u`. -/
def Rest {α : Type} (l : List α) (i : Nat) (u : List α) : Prop :=
  ∃ before, before.length = i ∧ before ++ u = l

namespace Rest

variable {α : Type} {l u v w : List α} {a : α} {i j n : Nat}

/-- From the start on, a list reads itself. -/
theorem start (l : List α) : Rest l 0 l := ⟨[], rfl, rfl⟩

/-- Any offset up to the end has something to read, if only nothing. -/
theorem of_le (h : i ≤ l.length) : Rest l i (l.drop i) :=
  ⟨l.take i, List.length_take_of_le h, List.take_append_drop i l⟩

/-- Behind its first part, a list reads the second. -/
theorem of_append (u v : List α) : Rest (u ++ v) u.length v := ⟨u, rfl, rfl⟩

/-- What stands at the end begins where its length says. -/
theorem of_suffix (h : u <:+ l) : Rest l (l.length - u.length) u := by
  obtain ⟨before, rfl⟩ := h
  refine ⟨before, ?_, rfl⟩
  rw [List.length_append]
  omega

/-- What has been passed and what is left make up the whole. -/
theorem length_eq (h : Rest l i u) : i + u.length = l.length := by
  obtain ⟨before, rfl, rfl⟩ := h
  rw [List.length_append]

theorem le (h : Rest l i u) : i ≤ l.length := by
  have hlength := h.length_eq
  omega

/-- What is left is determined by the offset, as a suffix of the list. -/
theorem drop_eq (h : Rest l i u) : l.drop i = u := by
  obtain ⟨before, rfl, rfl⟩ := h
  exact List.drop_left

theorem suffix (h : Rest l i u) : u <:+ l := by
  obtain ⟨before, -, rfl⟩ := h
  exact List.suffix_append before u

/-- So two readings from one offset are the same. -/
theorem eq (h : Rest l i u) (h' : Rest l i v) : u = v := by rw [← h.drop_eq, h'.drop_eq]

/-- Where an element is left, the offset lies inside the list. -/
theorem lt (h : Rest l i (a :: u)) : i < l.length := by
  have hlength := h.length_eq
  rw [List.length_cons] at hlength
  omega

/-- And where none is left, it lies at the end. -/
theorem not_lt (h : Rest l i []) : ¬ i < l.length := by
  have hlength := h.length_eq
  rw [List.length_nil] at hlength
  omega

/-- Past the first part of what is left, the second part is left. -/
theorem append (h : Rest l i (u ++ v)) : Rest l (i + u.length) v := by
  obtain ⟨before, rfl, rfl⟩ := h
  exact ⟨before ++ u, List.length_append, List.append_assoc before u v⟩

theorem next (h : Rest l i (a :: u)) : Rest l (i + 1) u := append (u := [a]) h

/-- Past any number of elements that are left, the others are left. -/
theorem drop (h : Rest l i u) (hn : n ≤ u.length) : Rest l (i + n) (u.drop n) := by
  have happend : Rest l i (u.take n ++ u.drop n) := by rwa [List.take_append_drop]
  have hdrop := happend.append
  rwa [List.length_take_of_le hn] at hdrop

/-- **The first element that is left** can be read at the offset. -/
theorem itemAt (h : Rest l i (a :: u)) : itemAt l i = .ok a := by
  obtain ⟨before, rfl, rfl⟩ := h
  unfold Offsets.itemAt
  rw [List.getElem?_append_right (Nat.le_refl _), Nat.sub_self, List.getElem?_cons_zero]

/-- A slice takes from what is left, and ends early if that does. -/
theorem slice_take (h : Rest l i u) (n : Nat) : slice l i n = .ok (u.take n) := by
  unfold Offsets.slice
  rw [if_pos h.le, h.drop_eq]

/-- So it takes a part of what is left that has its length. -/
theorem slice (h : Rest l i (u ++ v)) : slice l i u.length = .ok u := by
  rw [h.slice_take, List.take_left]

/-- And without a length it takes all that is left. -/
theorem sliceFrom (h : Rest l i u) : sliceFrom l i = .ok u := by
  unfold Offsets.sliceFrom
  rw [if_pos h.le, h.drop_eq]

/-- A pattern stands at an offset if what is left begins with it. -/
theorem standsAt {t u : Text} (h : Rest t i u) (pattern : Text) :
    standsAt pattern t i = .ok (pattern.isPrefixOf u) := by
  unfold Offsets.standsAt
  rw [h.slice_take, ok_bind, pure_eq_ok, Except.ok.injEq, Bool.eq_iff_iff, decide_eq_true_iff,
    List.isPrefixOf_iff_prefix, List.prefix_iff_eq_take]
  exact eq_comm

/-- A search from an offset on finds what is first in the text that is left. -/
theorem find? {t u : Text} (h : Rest t i u) (pattern : Text) :
    find? pattern t i = (cut? pattern u).map fun c => i + c.before.length := by
  unfold Offsets.find?
  rw [if_pos h.le, h.drop_eq]

/-- What stands around an occurrence of a pattern. -/
theorem cut {t u pattern : Text} {c : Cut} (h : Rest t i u) (hc : cut? pattern u = some c) :
    Rest t i (c.before ++ (pattern ++ c.after)) := by
  rwa [← found_of_cut? hc, ← List.append_assoc, append_of_cutAny? hc]

end Rest

/-- A list with an element at its end has a last one. -/
@[simp] theorem lastOf_concat {α : Type} (l : List α) (a : α) : lastOf (l ++ [a]) = .ok a := by
  unfold lastOf
  rw [List.length_append, List.length_singleton, difference_of_le (Nat.le_add_left 1 _), ok_bind,
    Nat.add_sub_cancel]
  exact (Rest.of_append l [a]).itemAt

/-- And gives it back. -/
@[simp] theorem popLast_concat {α : Type} (l : List α) (a : α) : popLast (l ++ [a]) = .ok l := by
  obtain ⟨b, m, h⟩ : ∃ b m, l ++ [a] = b :: m := List.exists_cons_of_ne_nil (by simp)
  rw [h]
  show Except.ok (b :: m).dropLast = _
  rw [← h, List.dropLast_concat]

/-- A search for one byte ends at the first one. -/
theorem of_cut?_singleton {b : UInt8} {t : Text} {c : Cut} (h : cut? [b] t = some c) :
    t = c.before ++ b :: c.after ∧ b ∉ c.before := by
  obtain ⟨ht, -, hfirst⟩ := (cut?_eq_some_iff (by simp)).1 h
  rw [List.append_assoc, List.singleton_append] at ht
  rw [List.dropLast_singleton, List.append_nil, List.singleton_infix_iff] at hfirst
  exact ⟨ht, hfirst⟩

/-- Up to a byte that does not occur, all is passed. -/
theorem dropWhile_ne_eq_nil {b : UInt8} {t : Text} (h : b ∉ t) : t.dropWhile (· ≠ b) = [] := by
  rw [List.dropWhile_eq_nil_iff]
  exact fun x hx => decide_eq_true fun heq => h (heq ▸ hx)

/-- What stands in front of the first occurrence of a byte, and what from there on. -/
theorem span_ne_append_cons {b : UInt8} {t u : Text} (h : b ∉ t) :
    (t ++ b :: u).takeWhile (· ≠ b) = t ∧ (t ++ b :: u).dropWhile (· ≠ b) = b :: u := by
  have hpass : ∀ x ∈ t, decide (x ≠ b) = true :=
    fun x hx => decide_eq_true fun heq => h (heq ▸ hx)
  constructor
  · rw [List.takeWhile_append_of_pos hpass, List.takeWhile_cons_of_neg (by simp), List.append_nil]
  · rw [List.dropWhile_append_of_pos hpass, List.dropWhile_cons_of_neg (by simp)]

/-- A byte that is not found is nowhere in the text. -/
theorem cut?_singleton_eq_none_iff {b : UInt8} {t : Text} : cut? [b] t = none ↔ b ∉ t := by
  rw [cut?_eq_none_iff, List.singleton_infix_iff]

end FolioGrid.Offsets
