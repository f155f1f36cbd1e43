/-
  FolioGrid.Proofs.Text.Encoding
  ────────────────────────────────
  **BYTES AND CHARACTERS.**

  In well-formed text no character's bytes can be found where the character
  does not stand: the first byte of a character never stands inside another
  one (`exists_lead`), and where two characters begin at one place, they are
  the same (`eq_of_utf8EncodeChar_append`).
-/
import FolioGrid.Text.Basic

namespace FolioGrid.Text

/-- A byte that stands inside a character, but not first. -/
def isContinuation (b : UInt8) : Bool := 0x80 ≤ b && b < 0xC0

theorem isContinuation_ofNat {n : Nat} (h : n < 256) :
    isContinuation (UInt8.ofNat n) = true ↔ 128 ≤ n ∧ n < 192 := by
  have hn : (UInt8.ofNat n).toNat = n := by
    rw [UInt8.toNat_ofNat', Nat.mod_eq_of_lt h]
  have h80 : (0x80 : UInt8).toNat = 128 := rfl
  have hC0 : (0xC0 : UInt8).toNat = 192 := rfl
  unfold isContinuation
  rw [Bool.and_eq_true, decide_eq_true_eq, decide_eq_true_eq, UInt8.le_iff_toNat_le,
    UInt8.lt_iff_toNat_lt, hn, h80, hC0]

/-- The first byte of a character is told from the others. -/
theorem exists_lead (c : Char) :
    ∃ lead rest, String.utf8EncodeChar c = lead :: rest
      ∧ isContinuation lead = false ∧ ∀ b ∈ rest, isContinuation b = true := by
  have hlow : ∀ n : Nat, isContinuation (UInt8.ofNat (n % 64 + 128)) = true := by
    intro n
    rw [isContinuation_ofNat (by omega)]
    omega
  have hlead : ∀ n : Nat, n < 256 → n < 128 ∨ 192 ≤ n → isContinuation (UInt8.ofNat n) = false := by
    intro n hn hout
    rw [← Bool.not_eq_true, isContinuation_ofNat hn]
    omega
  -- one case for each length of a character, the first byte below 128 or from 192 on
  unfold String.utf8EncodeChar
  dsimp only
  split
  · exact ⟨_, [], rfl, hlead _ (by omega) (by omega), fun _ h => absurd h List.not_mem_nil⟩
  split
  · refine ⟨_, _, rfl, hlead _ (by omega) (by omega), ?_⟩
    simp only [List.forall_mem_cons, List.not_mem_nil, false_implies, implies_true, hlow, and_self]
  split
  · refine ⟨_, _, rfl, hlead _ (by omega) (by omega), ?_⟩
    simp only [List.forall_mem_cons, List.not_mem_nil, false_implies, implies_true, hlow, and_self]
  · refine ⟨_, _, rfl, hlead _ (by omega) (by omega), ?_⟩
    simp only [List.forall_mem_cons, List.not_mem_nil, false_implies, implies_true, hlow, and_self]

/-- Two characters that begin at one place are the same. -/
theorem eq_of_utf8EncodeChar_append {a c : Char} {u v : Text}
    (h : String.utf8EncodeChar a ++ u = String.utf8EncodeChar c ++ v) : a = c := by
  -- the library's decoder reads the first character and does not look further
  have hdecode : ∀ (c : Char) (u : Text),
      (String.utf8EncodeChar c ++ u).toByteArray.utf8DecodeChar? 0 = some c := by
    intro c u
    rw [List.toByteArray_append, ByteArray.utf8DecodeChar?_utf8EncodeChar_append]
  have ha := hdecode a u
  rw [h, hdecode c v] at ha
  exact (Option.some.inj ha).symm

/-- **A character whose bytes occur in a text stands in it.** -/
theorem mem_of_infix_encode {c : Char} {cs : List Char}
    (h : String.utf8EncodeChar c <:+: encode cs) : c ∈ cs := by
  obtain ⟨x, y, h⟩ := h
  obtain ⟨lead, rest, hc, hlead, -⟩ := exists_lead c
  -- induction on the characters: where does the occurrence begin in the first of them?
  induction cs generalizing x with
  | nil =>
    rw [hc] at h
    simp [encode] at h
  | cons a cs ih =>
    have hcons : x ++ (String.utf8EncodeChar c ++ y) = String.utf8EncodeChar a ++ encode cs := by
      rw [← List.append_assoc, h]
      rfl
    rcases List.append_eq_append_iff.1 hcons with ⟨z, ha, hz⟩ | ⟨z, hx, hz⟩
    · cases x with
      | nil =>
        -- both characters begin here
        rw [List.nil_append] at hcons
        rw [eq_of_utf8EncodeChar_append hcons]
        exact List.mem_cons_self
      | cons b x =>
        -- the character would begin inside the first one, or behind it
        cases z with
        | nil =>
          refine List.mem_cons_of_mem a (ih [] ?_)
          rw [List.nil_append, hz, List.nil_append]
        | cons l z =>
          obtain ⟨first, inner, ha', -, hinner⟩ := exists_lead a
          rw [ha', List.cons_append] at ha
          rw [hc, List.cons_append, List.cons_append] at hz
          have hl : l ∈ inner := by
            rw [(List.cons.inj ha).2]
            exact List.mem_append_right x List.mem_cons_self
          rw [(List.cons.inj hz).1, hinner l hl] at hlead
          cases hlead
    · -- the occurrence begins behind the first character
      refine List.mem_cons_of_mem a (ih z ?_)
      rw [List.append_assoc, hz]

end FolioGrid.Text
