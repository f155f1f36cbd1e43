/-
  FolioGrid.Proofs.Offsets.Argument
  ────────────────────────────────
  **ARGUMENTS BY OFFSETS.**

  An argument is found from the offset of its opener; what follows it is then
  known by the offset behind the closer or, if there is none, by the end of the
  text.  Either is an offset inside the text, so it is safe to read on from there.
-/
import FolioGrid.Proofs.Markup.Characters
import FolioGrid.Proofs.Offsets.Basic

namespace FolioGrid.Offsets

open FolioGrid.Text FolioGrid.Markup

/-! ## §1. Scans. -/

/-- An argument that was found in a text. -/
structure Found where
  /-- What stands between the delimiters. -/
  content : Text
  /-- The offset behind the argument. -/
  stop : Nat
  /-- Whether the closer was there. -/
  closed : Bool
  deriving DecidableEq, Repr

/-- An argument that was read from the end of a text, by the offset behind it. -/
def Found.of (t : Text) (a : Argument) : Found := ⟨a.content, t.length - a.rest.length, a.closed⟩

/-- The argument whose opener stands at an offset. -/
def scan (d : Delimiters) (t : Text) (start : Nat) : Checked Found := go start 0
where
  /-- The scan from an offset on, at a depth of openers. -/
  go (i : Nat) (depth : Int) : Checked Found :=
    if _h : i < t.length then do
      let b ← itemAt t i
      if b = d.opener then go (i + 1) (depth + 1)
      else if b = d.closer then
        if depth - 1 = 0 then do
          let behind ← difference i start
          let count ← difference behind 1
          let content ← slice t (start + 1) count
          pure ⟨content, i + 1, true⟩
        else go (i + 1) (depth - 1)
      else go (i + 1) depth
    else do
      let content ← sliceFrom t (start + 1)
      pure ⟨content, t.length, false⟩
  termination_by t.length - i

section

variable {d : Delimiters} {t u : Text} {start i : Nat}

/-- Inside an argument, the scan has the bytes it has passed behind it and reads the next
one where `balanced?` does; the depth only sinks where it is not nought. -/
theorem Rest.scan_go {passed : Text} (depth : Nat)
    (h : Rest t (start + 1) (passed.reverse ++ u)) (hi : i = start + 1 + passed.length) :
    scan.go d t start i (depth + 1)
      = .ok (Found.of t (match Delimiters.balanced?.go d depth passed u with
          | some (content, rest) => ⟨content, rest, true⟩
          | none => ⟨passed.reverse ++ u, [], false⟩)) := by
  -- the bytes passed stand between the opener and the offset
  have hrest : Rest t i u := by
    rw [hi, ← List.length_reverse]
    exact h.append
  induction u generalizing passed depth i with
  | nil =>
    rw [scan.go, dif_neg hrest.not_lt, h.sliceFrom]
    rfl
  | cons b u ih =>
    have hpush : Rest t (start + 1) ((b :: passed).reverse ++ u) := by
      rwa [List.reverse_cons, List.append_assoc]
    have hnext : i + 1 = start + 1 + (b :: passed).length := by
      rw [hi, List.length_cons]
      omega
    have step := fun depth => ih depth hpush hnext hrest.next
    rw [scan.go, dif_pos hrest.lt, hrest.itemAt, ok_bind]
    unfold Delimiters.balanced?.go
    by_cases hopener : b = d.opener
    · rw [if_pos hopener, if_pos hopener]
      simpa using step (depth + 1)
    · rw [if_neg hopener, if_neg hopener]
      by_cases hcloser : b = d.closer
      · rw [if_pos hcloser, if_pos hcloser, Int.add_sub_cancel]
        cases depth with
        | zero =>
          have hbehind : difference i start = .ok (passed.length + 1) := by
            rw [hi, Nat.add_assoc, Nat.add_comm 1, difference_add]
          have hlength := hrest.length_eq
          rw [List.length_cons] at hlength
          rw [if_pos (by rfl), hbehind, ok_bind, difference_of_le (by omega), ok_bind,
            Nat.add_sub_cancel, ← List.length_reverse, h.slice, ok_bind]
          show Except.ok (Found.mk passed.reverse (i + 1) true)
            = .ok (Found.mk passed.reverse (t.length - u.length) true)
          rw [show t.length - u.length = i + 1 by omega]
        | succ outer =>
          rw [if_neg (by omega)]
          simpa using step outer
      · rw [if_neg hcloser, if_neg hcloser]
        simpa using step depth

/-- From its opener on, an argument is found as `argument` has it. -/
theorem Rest.scan {rest : Text} (h : Rest t i (d.opener :: rest)) :
    scan d t i = .ok (Found.of t (d.argument rest)) := by
  unfold Offsets.scan
  rw [scan.go, dif_pos h.lt, h.itemAt, ok_bind, if_pos rfl]
  -- no byte has been passed behind the opener
  have hnext : Rest t (i + 1) ([].reverse ++ rest) := h.next
  exact hnext.scan_go 0 rfl

end

/-! ## §2. Arguments at an offset. -/

/-- The argument with an opener at an offset; none if another byte stands there or none at
all. -/
def argumentAt (d : Delimiters) (t : Text) (i : Nat) : Checked (Option Found) :=
  if t.length ≤ i then pure none
  else do
    let b ← itemAt t i
    if b = d.opener then
      let found ← scan d t i
      pure (some found)
    else pure none

/-- The first offset, from some offset on, at which no byte of a kind stands. -/
def skipWhile (p : UInt8 → Bool) (t : Text) (i : Nat) : Checked Nat :=
  if _h : i < t.length then do
    let b ← itemAt t i
    if p b then skipWhile p t (i + 1) else pure i
  else pure i
termination_by t.length - i

/-- The brace argument at an offset. -/
def braceArgument (t : Text) (i : Nat) : Checked (Option Found) := argumentAt braces t i

/-- The optional argument at an offset; ASCII whitespace may stand in front of it. -/
def optionalArgument (t : Text) (i : Nat) : Checked (Option Found) := do
  let start ← skipWhile isSpace t i
  argumentAt brackets t start

/-- The offset behind an optional argument at an offset, or that offset if there is none. -/
def skipOption (t : Text) (i : Nat) : Checked Nat := do
  let options ← optionalArgument t i
  pure (match options with
    | some found => found.stop
    | none => i)

section

variable {d : Delimiters} {t u : Text} {a : Argument} {i : Nat}

/-- If no argument opens at an offset, none is found there, even at the end of the text. -/
theorem Rest.argumentAt (h : Rest t i u) (d : Delimiters) :
    argumentAt d t i = .ok ((d.argument? u).map (Found.of t)) := by
  unfold Offsets.argumentAt
  cases u with
  | nil => rw [if_pos (Nat.le_of_not_lt h.not_lt)]; rfl
  | cons b u =>
    rw [if_neg (Nat.not_le_of_lt h.lt), h.itemAt, ok_bind]
    show _ = Except.ok ((if b = d.opener then some (d.argument u) else none).map (Found.of t))
    by_cases hb : b = d.opener
    · rw [hb] at h
      rw [if_pos hb, if_pos hb, h.scan]
      rfl
    · rw [if_neg hb, if_neg hb]
      rfl

/-- Beyond the end there is no argument. -/
theorem argumentAt_of_le (hi : t.length ≤ i) : argumentAt d t i = .ok none := if_pos hi

/-- Bytes are skipped to an offset inside the text or to its end. -/
theorem Rest.skipWhile (h : Rest t i u) (p : UInt8 → Bool) :
    ∃ j, skipWhile p t i = .ok j ∧ Rest t j (u.dropWhile p) := by
  induction u generalizing i with
  | nil =>
    rw [Offsets.skipWhile, dif_neg h.not_lt]
    exact ⟨i, rfl, h⟩
  | cons b u ih =>
    rw [Offsets.skipWhile, dif_pos h.lt, h.itemAt, ok_bind]
    by_cases hb : p b = true
    · rw [if_pos hb, List.dropWhile_cons_of_pos hb]
      exact ih h.next
    · rw [if_neg hb, List.dropWhile_cons_of_neg hb]
      exact ⟨i, rfl, h⟩

theorem Rest.braceArgument (h : Rest t i u) :
    braceArgument t i = .ok ((braceArgument? u).map (Found.of t)) := h.argumentAt braces

/-- Between a command and its options there may be white, which is skipped first. -/
theorem Rest.optionalArgument (h : Rest t i u) :
    optionalArgument t i = .ok ((optionalArgument? u).map (Found.of t)) := by
  obtain ⟨j, hj, hrest⟩ := h.skipWhile isSpace
  unfold Offsets.optionalArgument
  rw [hj, ok_bind, hrest.argumentAt]
  rfl

/-- At the end of a text there are no options. -/
theorem optionalArgument_of_le (hi : t.length ≤ i) : optionalArgument t i = .ok none := by
  unfold optionalArgument
  rw [skipWhile, dif_neg (Nat.not_lt_of_le hi)]
  exact argumentAt_of_le hi

/-- Behind an argument stands what follows it. -/
theorem Rest.found (h : Rest t i u) (ha : d.argument? u = some a) :
    Rest t (Found.of t a).stop a.rest :=
  Rest.of_suffix ((Delimiters.rest_suffix ha).trans h.suffix)

/-- Behind an argument that is closed the text goes on with what it left. -/
theorem Rest.found_closed (h : Rest t i u)
    (ha : (d.argument? u).bind Argument.ifClosed = some a) : Rest t (Found.of t a).stop a.rest := by
  obtain ⟨a', ha', hclosed⟩ := Option.bind_eq_some_iff.1 ha
  rw [Argument.eq_of_ifClosed hclosed]
  exact h.found ha'

/-- So it does behind options. -/
theorem Rest.found_option (h : Rest t i u) (ha : optionalArgument? u = some a) :
    Rest t (Found.of t a).stop a.rest :=
  Rest.of_suffix ((Delimiters.rest_suffix ha).trans ((List.dropWhile_suffix _).trans h.suffix))

/-- Whether an argument closed is the same by offsets. -/
theorem filter_closed (t : Text) (a : Option Argument) :
    (a.map (Found.of t)).filter (·.closed) = (a.bind Argument.ifClosed).map (Found.of t) := by
  cases a with
  | none => rfl
  | some a =>
    unfold Argument.ifClosed
    cases hclosed : a.closed with
    | true => simp [Found.of, hclosed]
    | false => simp [Found.of, hclosed]

/-- Options are skipped to where the text goes on, or not at all. -/
theorem Rest.skipOption (h : Rest t i u) :
    ∃ j, skipOption t i = .ok j ∧ Rest t j (Markup.skipOption u) := by
  unfold Offsets.skipOption Markup.skipOption
  rw [h.optionalArgument, ok_bind]
  cases ha : optionalArgument? u with
  | none => exact ⟨i, rfl, h⟩
  | some a => exact ⟨_, rfl, h.found_option ha⟩

end

end FolioGrid.Offsets
