/-
  FolioGrid.Proofs.Offsets.Blank
  ────────────────────────────────
  **BLANKS BY OFFSETS.**

  Trimming looks for the first offset in front of which all is blank, and for the
  last one behind which all is.  From the right a wide blank is looked for three
  bytes before the end of what is left, so only where there are as many.
-/
import FolioGrid.Proofs.Offsets.Basic
import FolioGrid.Proofs.Text.Blank

namespace FolioGrid.Offsets

open FolioGrid.Text

/-! ## §1. One blank. -/

/-- How many bytes the blank has that stands at an offset; none if there is none. -/
def blankLength (t : Text) (i : Nat) : Checked Nat :=
  if t.length ≤ i then pure 0
  else do
    let b ← itemAt t i
    if isSpace b then pure 1
    else
      let wide ← standsAt wideSpace t i
      pure (if wide then 3 else 0)

/-- How many bytes the blank has with which a text starts. -/
def headBlank : Text → Nat
  | [] => 0
  | b :: rest => if isSpace b then 1 else if wideSpace.isPrefixOf (b :: rest) then 3 else 0

/-- The kinds of blanks in the order in which they are tried. -/
theorem headBlank_cons (b : UInt8) (t : Text) :
    headBlank (b :: t) = if isSpace b then 1 else if wideSpace.isPrefixOf (b :: t) then 3 else 0 :=
  rfl

/-- A blank is looked for at an offset without reading beyond the end, though the wide one
has three bytes. -/
theorem Rest.blankLength {t u : Text} {i : Nat} (h : Rest t i u) :
    blankLength t i = .ok (headBlank u) := by
  unfold Offsets.blankLength
  cases u with
  | nil => rw [if_pos (Nat.le_of_not_lt h.not_lt)]; rfl
  | cons b u =>
    rw [if_neg (Nat.not_le_of_lt h.lt), h.itemAt, ok_bind, headBlank_cons]
    by_cases hb : isSpace b = true
    · rw [if_pos hb, if_pos hb]
      rfl
    · rw [if_neg hb, if_neg hb, h.standsAt]
      rfl

/-- To start with a blank is to have one of some length. -/
theorem startsBlank_eq (t : Text) : startsBlank t = decide (0 < headBlank t) := by
  cases t with
  | nil => rfl
  | cons b t =>
    show (isSpace b || wideSpace.isPrefixOf (b :: t)) = decide (0 < headBlank (b :: t))
    by_cases hb : isSpace b = true
    · simp [headBlank_cons, hb]
    · by_cases hwide : wideSpace.isPrefixOf (b :: t) = true
      · simp [headBlank_cons, hb, hwide]
      · simp [headBlank_cons, hb, hwide]

/-- A space is one byte long. -/
theorem headBlank_of_isSpace {b : UInt8} (hb : isSpace b = true) (t : Text) :
    headBlank (b :: t) = 1 := if_pos hb

/-- And a wide space three. -/
theorem headBlank_of_wide {a b c : UInt8} (ha : ¬ isSpace a = true) (h : wideSpace = [a, b, c])
    (t : Text) : headBlank (a :: b :: c :: t) = 3 := by
  rw [headBlank_cons, if_neg ha, if_pos]
  rw [h, List.isPrefixOf_iff_prefix]
  exact List.prefix_append [a, b, c] t

/-- Three bytes that are no wide blank start with none. -/
theorem headBlank_of_not_wide {a b c : UInt8} (ha : ¬ isSpace a = true)
    (h : ¬ wideSpace = [a, b, c]) (t : Text) : headBlank (a :: b :: c :: t) = 0 := by
  rw [headBlank_cons, if_neg ha, if_neg]
  rw [List.isPrefixOf_iff_prefix, List.prefix_iff_eq_take]
  exact h

/-- And neither does what has fewer bytes. -/
theorem headBlank_of_short {a : UInt8} {rest : Text} (ha : ¬ isSpace a = true)
    (h : ∀ b c after, ¬ rest = b :: c :: after) : headBlank (a :: rest) = 0 := by
  rw [headBlank_cons, if_neg ha, if_neg]
  rw [List.isPrefixOf_iff_prefix]
  rintro ⟨after, hafter⟩
  exact h _ _ after (List.cons.inj hafter).2.symm

/-! ## §2. Trimming. -/

/-- The first offset, from some offset on, at which no blank stands. -/
def skipBlanks (t : Text) (i : Nat) : Checked Nat := do
  let n ← blankLength t i
  if n = 0 then pure i
  else if _h : t.length - (i + n) < t.length - i then skipBlanks t (i + n)
  else .error .stuck
termination_by t.length - i

/-- A text without the blanks in front of it. -/
def trimLeft (t : Text) : Checked Text := do
  let i ← skipBlanks t 0
  sliceFrom t i

/-- Blanks are skipped to where the trimmed text begins. -/
theorem Rest.skipBlanks {t u : Text} {i : Nat} (h : Rest t i u) :
    ∃ j, skipBlanks t i = .ok j ∧ Rest t j (Text.trimLeft u) := by
  unfold Text.trimLeft
  have stop : ∀ {v : Text} {k : Nat}, Rest t k v → headBlank v = 0 →
      Offsets.skipBlanks t k = .ok k := by
    intro v k hv hnone
    rw [Offsets.skipBlanks, hv.blankLength, hnone]
    rfl
  have pass : ∀ {v : Text} {k n : Nat}, Rest t k v → headBlank v = n → 0 < n → n ≤ v.length →
      Offsets.skipBlanks t k = Offsets.skipBlanks t (k + n) := by
    intro v k n hv hn hpos hle
    have hlength := hv.length_eq
    conv => lhs; rw [Offsets.skipBlanks, hv.blankLength, hn]
    rw [ok_bind, if_neg (by omega), dif_pos (by omega)]
  fun_induction dropBlanks wideSpace u generalizing i with
  | case1 => exact ⟨i, stop h rfl, h⟩
  | case2 a rest hspace ih =>
    rw [pass h (headBlank_of_isSpace hspace rest) (by decide) (by simp)]
    exact ih h.next
  | case3 a hspace b c after hwide ih =>
    rw [pass h (headBlank_of_wide hspace hwide after) (by decide) (by simp)]
    exact ih h.next.next.next
  | case4 a hspace b c after hwide => exact ⟨i, stop h (headBlank_of_not_wide hspace hwide after), h⟩
  | case5 a rest hspace hshort => exact ⟨i, stop h (headBlank_of_short hspace hshort), h⟩

/-- Trimming in front goes to an offset inside the text or to its end. -/
theorem trimLeft_eq (t : Text) : trimLeft t = .ok (Text.trimLeft t) := by
  obtain ⟨j, hj, hrest⟩ := (Rest.start t).skipBlanks
  unfold trimLeft
  rw [hj, ok_bind, hrest.sliceFrom]

/-- Whether a wide blank stands in front of an offset. -/
def wideBefore (t : Text) (stop : Nat) : Checked Bool :=
  if 3 ≤ stop then do
    let start ← difference stop 3
    standsAt wideSpace t start
  else pure false

/-- The last offset, up to some offset, in front of which no blank stands. -/
def skipBlanksBack (t : Text) (stop : Nat) : Checked Nat :=
  if 0 < stop then do
    let last ← difference stop 1
    let b ← itemAt t last
    if isSpace b then
      if _h : last < stop then skipBlanksBack t last else .error .stuck
    else do
      let wide ← wideBefore t stop
      if wide then do
        let start ← difference stop 3
        if _h : start < stop then skipBlanksBack t start else .error .stuck
      else pure stop
  else pure stop
termination_by stop

/-- A text without the blanks behind it. -/
def trimRight (t : Text) : Checked Text := do
  let stop ← skipBlanksBack t t.length
  slice t 0 stop

/-- Behind what is read backwards stands the rest. -/
theorem rest_reverse (u w : Text) : Rest (u.reverse ++ w) u.length w := by
  rw [← List.length_reverse]
  exact Rest.of_append u.reverse w

/-- The three bytes in front of an offset are compared only if there are three. -/
theorem wideBefore_reverse (u w : Text) :
    wideBefore (u.reverse ++ w) u.length = .ok (wideSpace.reverse.isPrefixOf u) := by
  unfold wideBefore
  by_cases hlength : 3 ≤ u.length
  · obtain ⟨a, b, c, after, rfl⟩ : ∃ a b c after, u = a :: b :: c :: after := by
      rcases u with _ | ⟨a, _ | ⟨b, _ | ⟨c, after⟩⟩⟩
      · simp at hlength
      · simp at hlength
      · simp at hlength
      · exact ⟨a, b, c, after, rfl⟩
    have hrest : Rest ((a :: b :: c :: after).reverse ++ w) after.length (c :: b :: a :: w) := by
      simpa using rest_reverse after (c :: b :: a :: w)
    rw [if_pos hlength, difference_of_le hlength, ok_bind]
    show standsAt wideSpace _ after.length = _
    rw [hrest.standsAt, Except.ok.injEq, Bool.eq_iff_iff, List.isPrefixOf_iff_prefix,
      List.isPrefixOf_iff_prefix, List.prefix_iff_eq_take, List.prefix_iff_eq_take]
    show wideSpace = [c, b, a] ↔ wideSpace.reverse = [a, b, c]
    rw [List.reverse_eq_iff]
    rfl
  · have hnone : ¬ wideSpace.reverse.isPrefixOf u = true := by
      rw [List.isPrefixOf_iff_prefix]
      exact fun h => hlength h.length_le
    rw [if_neg hlength, Bool.eq_false_iff.2 hnone]
    rfl

/-- One step back: a space is passed, or else a wide blank if there is one. -/
theorem skipBlanksBack_cons (a : UInt8) (v w : Text) :
    skipBlanksBack ((a :: v).reverse ++ w) (a :: v).length =
      if isSpace a then skipBlanksBack ((a :: v).reverse ++ w) v.length
      else if wideSpace.reverse.isPrefixOf (a :: v) then
        skipBlanksBack ((a :: v).reverse ++ w) ((a :: v).length - 3)
      else .ok (a :: v).length := by
  have hpos : 0 < (a :: v).length := Nat.succ_pos v.length
  have hlast : Rest ((a :: v).reverse ++ w) ((a :: v).length - 1) (a :: w) := by
    simpa using rest_reverse v (a :: w)
  conv => lhs; rw [skipBlanksBack]
  rw [if_pos hpos, difference_of_le hpos, ok_bind, hlast.itemAt, ok_bind, wideBefore_reverse,
    ok_bind]
  by_cases hspace : isSpace a = true
  · rw [if_pos hspace, if_pos hspace]
    exact dif_pos (Nat.lt_succ_self v.length)
  rw [if_neg hspace, if_neg hspace]
  by_cases hwide : wideSpace.reverse.isPrefixOf (a :: v) = true
  · have hlength : 3 ≤ (a :: v).length := (List.isPrefixOf_iff_prefix.1 hwide).length_le
    rw [if_pos hwide, if_pos hwide, difference_of_le hlength, ok_bind, dif_pos (by omega)]
  · rw [if_neg hwide, if_neg hwide]
    rfl

/-- What stands in front of an offset is read backwards. -/
theorem skipBlanksBack_eq (u w : Text) :
    skipBlanksBack (u.reverse ++ w) u.length
      = .ok (dropBlanks wideSpace.reverse u).length := by
  fun_induction dropBlanks wideSpace.reverse u generalizing w with
  | case1 => rw [skipBlanksBack]; rfl
  | case2 a rest hspace ih =>
    rw [skipBlanksBack_cons, if_pos hspace]
    simpa using ih ([a] ++ w)
  | case3 a hspace b c after hwide ih =>
    have hhere : wideSpace.reverse.isPrefixOf (a :: b :: c :: after) = true := by
      rw [hwide, List.isPrefixOf_iff_prefix]
      exact List.prefix_append [a, b, c] after
    rw [skipBlanksBack_cons, if_neg hspace, if_pos hhere]
    simpa using ih ([c, b, a] ++ w)
  | case4 a hspace b c after hwide =>
    have hnone : ¬ wideSpace.reverse.isPrefixOf (a :: b :: c :: after) = true := by
      rw [List.isPrefixOf_iff_prefix, List.prefix_iff_eq_take]
      exact hwide
    rw [skipBlanksBack_cons, if_neg hspace, if_neg hnone]
  | case5 a rest hspace hshort =>
    have hnone : ¬ wideSpace.reverse.isPrefixOf (a :: rest) = true := by
      rw [List.isPrefixOf_iff_prefix]
      rintro ⟨after, hafter⟩
      exact hshort _ _ after (List.cons.inj hafter).2.symm
    rw [skipBlanksBack_cons, if_neg hspace, if_neg hnone]

/-- Trimming behind steps back over bytes that are there. -/
theorem trimRight_eq (t : Text) : trimRight t = .ok (Text.trimRight t) := by
  have hback := skipBlanksBack_eq t.reverse []
  rw [List.reverse_reverse, List.append_nil, List.length_reverse] at hback
  obtain ⟨v, -, ht⟩ := exists_blanks_trimRight t
  have hrest : Rest t 0 (Text.trimRight t ++ v) := by
    rw [ht]
    exact Rest.start t
  unfold trimRight
  rw [hback, ok_bind, ← List.length_reverse]
  exact hrest.slice

/-- A text without the blanks at its two ends. -/
def trim (t : Text) : Checked Text := do
  let right ← trimRight t
  trimLeft right

@[simp] theorem trim_eq (t : Text) : trim t = .ok (Text.trim t) := by
  unfold trim
  rw [trimRight_eq, ok_bind, trimLeft_eq]
  rfl

/-! ## §3. Texts without blanks. -/

/-- A text without any blank. -/
def removeBlanks (t : Text) : Checked Text := go 0
where
  /-- The bytes from an offset on that are no part of a blank. -/
  go (i : Nat) : Checked Text :=
    if _h : i < t.length then do
      let n ← blankLength t i
      if _hn : 0 < n then go (i + n)
      else
        let b ← itemAt t i
        let rest ← go (i + 1)
        pure (b :: rest)
    else pure []
  termination_by t.length - i

/-- Blanks are left out from an offset on, each by its own length. -/
theorem Rest.removeBlanks_go {t u : Text} {i : Nat} (h : Rest t i u) :
    removeBlanks.go t i = .ok (Text.removeBlanks u) := by
  have pass : ∀ {a : UInt8} {v : Text} {k n : Nat}, Rest t k (a :: v) → headBlank (a :: v) = n →
      0 < n → removeBlanks.go t k = removeBlanks.go t (k + n) := by
    intro a v k n hv hn hpos
    conv => lhs; rw [removeBlanks.go, dif_pos hv.lt, hv.blankLength, hn]
    rw [ok_bind, dif_pos hpos]
  have keep : ∀ {a : UInt8} {v : Text} {k : Nat}, Rest t k (a :: v) → headBlank (a :: v) = 0 →
      removeBlanks.go t k = (do
        let rest ← removeBlanks.go t (k + 1)
        pure (a :: rest)) := by
    intro a v k hv hnone
    conv => lhs; rw [removeBlanks.go, dif_pos hv.lt, hv.blankLength, hnone]
    rw [ok_bind, dif_neg (Nat.lt_irrefl 0), hv.itemAt, ok_bind]
  fun_induction Text.removeBlanks u generalizing i with
  | case1 => rw [removeBlanks.go, dif_neg h.not_lt]; rfl
  | case2 a rest hspace ih =>
    rw [pass h (headBlank_of_isSpace hspace rest) (by decide)]
    exact ih h.next
  | case3 a hspace b c after hwide ih =>
    rw [pass h (headBlank_of_wide hspace hwide after) (by decide)]
    exact ih h.next.next.next
  | case4 a hspace b c after hwide ih =>
    rw [keep h (headBlank_of_not_wide hspace hwide after), ih h.next]
    rfl
  | case5 a rest hspace hshort ih =>
    rw [keep h (headBlank_of_short hspace hshort), ih h.next]
    rfl

theorem removeBlanks_eq (t : Text) : removeBlanks t = .ok (Text.removeBlanks t) :=
  (Rest.start t).removeBlanks_go

end FolioGrid.Offsets
