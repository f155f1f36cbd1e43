/-
  FolioGrid.Proofs.Text.Numeral
  ────────────────────────────────
  **NUMERALS THAT ARE READ BACK.**

  The decimal form of a number holds digits only, and reading it gives the
  number back, as long as it is no larger than a count may be.  Conversely a
  numeral is the decimal form of its value, behind zeros.
-/
import Mathlib.Data.List.Induction
import FolioGrid.Text.Number

namespace FolioGrid.Text

/-! ## §1. Digits. -/

/-- The digit of a number below ten is a digit. -/
theorem isDigit_digit : ∀ n < 10, isDigit (digit n) = true := by decide

/-- A digit is read as the number it was written for. -/
theorem toNat_digit : ∀ n < 10, (digit n).toNat - 48 = n := by decide

/-- A digit stands for a number below ten, and is the digit of that number. -/
theorem digit_toNat {b : UInt8} (h : isDigit b = true) :
    b.toNat - 48 < 10 ∧ digit (b.toNat - 48) = b := by
  unfold isDigit at h
  simp only [Bool.and_eq_true, decide_eq_true_eq, UInt8.le_iff_toNat_le] at h
  obtain ⟨hlow, hhigh⟩ := h
  change 48 ≤ b.toNat at hlow
  change b.toNat ≤ 57 at hhigh
  refine ⟨by omega, ?_⟩
  unfold digit
  rw [Nat.add_sub_cancel' hlow, UInt8.ofNat_toNat]

/-- A digit behind a numeral adds itself to ten times the value. -/
theorem numeralValue_concat (t : Text) (b : UInt8) :
    numeralValue (t ++ [b]) = 10 * numeralValue t + (b.toNat - 48) := by
  unfold numeralValue
  rw [List.foldl_append]
  rfl

/-! ## §2. The decimal form. -/

/-- A number below ten is written with its digit. -/
theorem natDecimal_of_lt {n : Nat} (h : n < 10) : natDecimal n = [digit n] := by
  rw [natDecimal, if_pos h]

/-- No number is written with nothing. -/
theorem natDecimal_ne_nil (n : Nat) : natDecimal n ≠ [] := by
  unfold natDecimal
  split <;> simp

/-- The decimal form of a number holds digits only. -/
theorem isDigit_of_mem_natDecimal (n : Nat) : ∀ b ∈ natDecimal n, isDigit b = true := by
  induction n using natDecimal.induct with
  | case1 n hn =>
    intro b hb
    rw [natDecimal_of_lt hn, List.mem_singleton] at hb
    rw [hb]
    exact isDigit_digit n hn
  | case2 n hn ih =>
    intro b hb
    rw [natDecimal, if_neg hn, List.mem_append, List.mem_singleton] at hb
    rcases hb with hb | hb
    · exact ih b hb
    · rw [hb]
      exact isDigit_digit _ (Nat.mod_lt _ (by decide))

/-- **Reading the decimal form** gives the number back. -/
theorem numeralValue_natDecimal (n : Nat) : numeralValue (natDecimal n) = n := by
  induction n using natDecimal.induct with
  | case1 n hn =>
    -- one digit, read from nothing
    rw [natDecimal_of_lt hn]
    show 10 * 0 + ((digit n).toNat - 48) = n
    rw [toNat_digit n hn]
    omega
  | case2 n hn ih =>
    rw [natDecimal, if_neg hn, numeralValue_concat, ih, toNat_digit _ (Nat.mod_lt _ (by decide))]
    omega

/-- The decimal form of a number is a numeral. -/
theorem isNumeral_natDecimal (n : Nat) : isNumeral (natDecimal n) = true := by
  unfold isNumeral
  rw [Bool.and_eq_true, List.all_eq_true]
  refine ⟨?_, isDigit_of_mem_natDecimal n⟩
  rw [Bool.not_eq_true', List.isEmpty_eq_false_iff]
  exact natDecimal_ne_nil n

/-- **A number in range is read back from its decimal form.** -/
theorem count?_natDecimal {n : Nat} (h : n ≤ maxCount) : count? (natDecimal n) = some n := by
  unfold count?
  rw [isNumeral_natDecimal, numeralValue_natDecimal, if_pos]
  simpa using h

/-- An integer that is not negative is written without a sign. -/
theorem decimal_natCast (n : Nat) : decimal n = natDecimal n := rfl

/-- No two numbers have the same decimal form. -/
theorem natDecimal_injective : Function.Injective natDecimal := by
  intro m n h
  rw [← numeralValue_natDecimal m, ← numeralValue_natDecimal n, h]

/-- **No two integers have the same decimal form.** -/
theorem decimal_injective : Function.Injective decimal := by
  -- a minus sign is no digit
  have hsign : ∀ m n, natDecimal m ≠ ascii '-' :: natDecimal n := by
    intro m n h
    have hdigit := isDigit_of_mem_natDecimal m (ascii '-') (h ▸ List.mem_cons_self)
    exact absurd hdigit (by decide)
  intro i j h
  cases i with
  | ofNat m =>
    cases j with
    | ofNat n => exact congrArg Int.ofNat (natDecimal_injective h)
    | negSucc n => exact absurd h (hsign m (n + 1))
  | negSucc m =>
    cases j with
    | ofNat n => exact absurd h.symm (hsign n (m + 1))
    | negSucc n =>
      have hsucc := natDecimal_injective (List.cons.inj h).2
      rw [Nat.succ.inj hsucc]

/-- The decimal form of an integer holds digits and minus signs only. -/
theorem mem_decimal {i : Int} {b : UInt8} (h : b ∈ decimal i) :
    isDigit b = true ∨ b = ascii '-' := by
  cases i with
  | ofNat n => exact Or.inl (isDigit_of_mem_natDecimal n b h)
  | negSucc n =>
    rcases List.mem_cons.1 h with h | h
    · exact Or.inr h
    · exact Or.inl (isDigit_of_mem_natDecimal _ b h)

/-- So no other byte stands in it. -/
theorem not_mem_decimal {b : UInt8} (hdigit : isDigit b = false) (hsign : b ≠ ascii '-')
    (i : Int) : b ∉ decimal i := by
  intro h
  rcases mem_decimal h with h | h
  · rw [hdigit] at h
    cases h
  · exact hsign h

/-! ## §3. Numerals. -/

/-- A digit behind the decimal form of a number other than nought gives a decimal form. -/
theorem natDecimal_ten_mul_add {m d : Nat} (hm : 0 < m) (hd : d < 10) :
    natDecimal (10 * m + d) = natDecimal m ++ [digit d] := by
  rw [natDecimal, if_neg (by omega)]
  have hdiv : (10 * m + d) / 10 = m := by omega
  have hmod : (10 * m + d) % 10 = d := by omega
  rw [hdiv, hmod]

/-- Zeros in front of a numeral do not count. -/
theorem numeralValue_zeros (k : Nat) (t : Text) :
    numeralValue (List.replicate k (ascii '0') ++ t) = numeralValue t := by
  induction k with
  | zero => rfl
  | succ k ih => exact ih

/-- Digits are the decimal form of what they write, behind zeros. -/
theorem exists_zeros {t : Text} (hne : t ≠ []) (hdigits : ∀ b ∈ t, isDigit b = true) :
    ∃ k, t = List.replicate k (ascii '0') ++ natDecimal (numeralValue t) := by
  -- induction from the end, as the decimal form is made
  induction t using List.reverseRecOn with
  | nil => exact absurd rfl hne
  | append_singleton s b ih =>
    obtain ⟨hlt, hdigit⟩ := digit_toNat (hdigits b (by simp))
    rw [numeralValue_concat]
    rcases eq_or_ne s [] with rfl | hs
    · -- one digit is its own decimal form
      show ∃ k, [b] = List.replicate k (ascii '0') ++ natDecimal (10 * 0 + (b.toNat - 48))
      rw [Nat.mul_zero, Nat.zero_add, natDecimal_of_lt hlt, hdigit]
      exact ⟨0, rfl⟩
    obtain ⟨k, hk⟩ := ih hs fun c hc => hdigits c (List.mem_append_left _ hc)
    rcases Nat.eq_zero_or_pos (numeralValue s) with hzero | hpos
    · -- all that stands in front of this digit are zeros
      have hnought : natDecimal 0 = [ascii '0'] := natDecimal_of_lt (by decide)
      rw [hzero, hnought, ← List.replicate_succ'] at hk
      refine ⟨k + 1, ?_⟩
      rw [hzero, Nat.mul_zero, Nat.zero_add, natDecimal_of_lt hlt, hdigit, ← hk]
    · refine ⟨k, ?_⟩
      rw [natDecimal_ten_mul_add hpos hlt, hdigit, ← List.append_assoc, ← hk]

/-- **The numerals of a number** are its decimal form behind zeros. -/
theorem isNumeral_and_value_iff {t : Text} {n : Nat} :
    isNumeral t = true ∧ numeralValue t = n
      ↔ ∃ k, t = List.replicate k (ascii '0') ++ natDecimal n := by
  have hnumeral : ∀ u, isNumeral u = true ↔ u ≠ [] ∧ ∀ b ∈ u, isDigit b = true := by
    intro u
    simp [isNumeral]
  rw [hnumeral]
  constructor
  · rintro ⟨⟨hne, hdigits⟩, rfl⟩
    exact exists_zeros hne hdigits
  · rintro ⟨k, rfl⟩
    refine ⟨⟨?_, ?_⟩, by rw [numeralValue_zeros, numeralValue_natDecimal]⟩
    · intro hnil
      exact natDecimal_ne_nil n (List.append_eq_nil_iff.1 hnil).2
    · intro b hb
      rcases List.mem_append.1 hb with hb | hb
      · rw [List.eq_of_mem_replicate hb]
        decide
      · exact isDigit_of_mem_natDecimal n b hb

end FolioGrid.Text
