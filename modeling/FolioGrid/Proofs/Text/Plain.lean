/-
  FolioGrid.Proofs.Text.Plain
  ────────────────────────────────
  **PLAIN TEXTS.**

  A plain text says only words: it holds no blank, no punctuation mark and no
  byte of the markup.  Cleaning and trimming leave it as it is, and no command
  can begin in it.  In well-formed text that is a matter of its characters
  (`plain_encode`).  The decimal form of a number is plain.
-/
import FolioGrid.Proofs.Text.Blank
import FolioGrid.Proofs.Text.Encoding
import FolioGrid.Proofs.Text.Numeral
import FolioGrid.Text.Punctuation

namespace FolioGrid.Text

/-! ## §1. Cleaning. -/

variable {t u : Text}

/-- A text without any of some glyphs is not changed by dropping them. -/
theorem dropGlyphs_eq_self {unwanted : List Text} (h : ∀ g ∈ unwanted, ¬ g <:+: t) :
    dropGlyphs unwanted t = t := by
  have hkeep : (glyphs t).filter (fun g => !unwanted.contains g) = glyphs t := by
    rw [List.filter_eq_self]
    intro g hg
    rw [Bool.not_eq_true', ← Bool.not_eq_true, List.contains_iff_mem]
    intro hmem
    refine h g hmem ?_
    have hin := List.infix_of_mem_flatten hg
    rwa [flatten_glyphs] at hin
  unfold dropGlyphs
  rw [hkeep, flatten_glyphs]

/-- A text without punctuation is clean. -/
theorem clean_eq_self (h : ∀ m ∈ marks, ¬ m <:+: t) : clean t = t := by
  have hbook : ∀ m ∈ bookMarks, m ∈ marks := by decide
  unfold clean stripPunctuation stripBookMarks
  rw [dropGlyphs_eq_self fun m hm => h m (hbook m hm), dropGlyphs_eq_self h]

/-! ## §2. Plain texts. -/

/-- The bytes that mean something to the markup. -/
def markupBytes : List UInt8 :=
  [backslash, openBrace, closeBrace, openBracket, closeBracket, percent]

/-- A text that says only words. -/
structure Plain (t : Text) : Prop where
  /-- It says something. -/
  nonempty : t ≠ []
  /-- It has no blanks. -/
  solid : Solid t
  /-- It has no punctuation. -/
  noMark : ∀ m ∈ marks, ¬ m <:+: t
  /-- It has no markup. -/
  noMarkup : ∀ b ∈ markupBytes, b ∉ t

theorem Plain.clean_eq (h : Plain t) : clean t = t := clean_eq_self h.noMark

theorem Plain.stripPunctuation_eq (h : Plain t) : stripPunctuation t = t :=
  dropGlyphs_eq_self h.noMark

/-- No command begins in a plain text. -/
theorem Plain.backslash_not_mem (h : Plain t) : backslash ∉ t := h.noMarkup _ (by decide)

/-- A plain text holds no white, not even inside. -/
theorem Plain.not_mem_of_isSpace (h : Plain t) {b : UInt8} (hb : isSpace b = true) : b ∉ t := by
  intro hmem
  rw [h.solid.space b hmem] at hb
  cases hb

theorem Plain.lineFeed_not_mem (h : Plain t) : lineFeed ∉ t := h.not_mem_of_isSpace (by decide)

/-! ## §3. Plain characters. -/

/-- The characters that are blanks. -/
def blanks : List Char := [' ', '\t', '\n', '\x0b', '\x0c', '\r', '\u3000']

/-- The characters that no plain text holds: blanks, punctuation and markup. -/
def unplain : List Char :=
  [' ', '\t', '\n', '\x0b', '\x0c', '\r', '\u3000'] ++ punctuation.toList
    ++ ['\\', '\x7b', '\x7d', '[', ']', '%']

/-- An ASCII whitespace byte is a blank. -/
theorem exists_blank_of_isSpace {b : UInt8} (h : isSpace b = true) :
    ∃ c ∈ blanks, String.utf8EncodeChar c = [b] := by
  have hcases : b = 0x20 ∨ b = 0x09 ∨ b = 0x0A ∨ b = 0x0B ∨ b = 0x0C ∨ b = 0x0D := by
    unfold isSpace at h
    simp only [Bool.or_eq_true, beq_iff_eq, Bool.and_eq_true, decide_eq_true_eq,
      UInt8.le_iff_toNat_le, ← UInt8.toNat_inj, UInt8.reduceToNat] at h ⊢
    omega
  rcases hcases with rfl | rfl | rfl | rfl | rfl | rfl
  · exact ⟨' ', by decide, rfl⟩
  · exact ⟨'\t', by decide, rfl⟩
  · exact ⟨'\n', by decide, rfl⟩
  · exact ⟨'\x0b', by decide, rfl⟩
  · exact ⟨'\x0c', by decide, rfl⟩
  · exact ⟨'\r', by decide, rfl⟩

/-- **A well-formed text is plain if its characters are.** -/
theorem plain_encode {cs : List Char} (hne : cs ≠ []) (h : ∀ c ∈ cs, c ∉ unplain) :
    Plain (encode cs) := by
  -- no such character occurs, not even across two others, and none is a byte either
  have habsent : ∀ c ∈ unplain, ¬ String.utf8EncodeChar c <:+: encode cs :=
    fun c hc hin => h c (mem_of_infix_encode hin) hc
  have hbyte : ∀ c ∈ unplain, ∀ b, String.utf8EncodeChar c = [b] → b ∉ encode cs := by
    intro c hc b hb hmem
    obtain ⟨u, v, huv⟩ := List.append_of_mem hmem
    refine habsent c hc ⟨u, v, ?_⟩
    rw [hb, huv, List.append_assoc, List.singleton_append]
  constructor
  · obtain ⟨c, cs, rfl⟩ := List.exists_cons_of_ne_nil hne
    obtain ⟨lead, rest, hc, -⟩ := exists_lead c
    show String.utf8EncodeChar c ++ encode cs ≠ []
    rw [hc]
    exact List.cons_ne_nil _ _
  · refine ⟨?_, habsent '\u3000' (by decide)⟩
    intro b hb
    rw [← Bool.not_eq_true]
    intro hspace
    obtain ⟨c, hc, hcb⟩ := exists_blank_of_isSpace hspace
    exact hbyte c (List.mem_append_left _ (List.mem_append_left _ hc)) b hcb hb
  · intro m hm
    obtain ⟨c, hc, rfl⟩ := List.mem_map.1 hm
    exact habsent c (List.mem_append_left _ (List.mem_append_right _ hc))
  · intro b hb
    have hmarkup :
        (markupBytes.all fun b => unplain.any (String.utf8EncodeChar · == [b])) = true := by
      decide +kernel
    obtain ⟨c, hc, hcb⟩ := List.any_eq_true.1 (List.all_eq_true.1 hmarkup b hb)
    exact hbyte c hc b (eq_of_beq hcb)

/-- Whether a string is plain can be seen from its characters. -/
theorem plain_utf8 {s : String} (hne : s.toList ≠ [])
    (h : (s.toList.all fun c => !unplain.contains c) = true) : Plain (utf8 s) := by
  refine plain_encode hne fun c hc hmem => ?_
  have hno := List.all_eq_true.1 h c hc
  rw [List.contains_iff_mem.2 hmem] at hno
  cases hno

/-! ## §4. Numerals. -/

/-- A digit is no space. -/
theorem isSpace_of_isDigit {b : UInt8} (h : isDigit b = true) : isSpace b = false := by
  unfold isDigit at h
  unfold isSpace
  -- in numbers: 48 and more is neither 32 nor at most 13
  simp only [Bool.and_eq_true, decide_eq_true_eq, UInt8.le_iff_toNat_le] at h
  simp only [Bool.or_eq_false_iff, beq_eq_false_iff_ne, Bool.and_eq_false_iff,
    decide_eq_false_iff_not, UInt8.le_iff_toNat_le, ne_eq, ← UInt8.toNat_inj]
  have h30 : (0x30 : UInt8).toNat = 48 := rfl
  have h20 : (0x20 : UInt8).toNat = 32 := rfl
  have h0D : (0x0D : UInt8).toNat = 13 := rfl
  omega

/-- Nothing but digits stands in the decimal form of a number. -/
theorem not_mem_natDecimal {b : UInt8} (h : isDigit b = false) (n : Nat) : b ∉ natDecimal n := by
  intro hmem
  rw [isDigit_of_mem_natDecimal n b hmem] at h
  cases h

/-- A numeral is plain. -/
theorem plain_natDecimal (n : Nat) : Plain (natDecimal n) where
  nonempty := natDecimal_ne_nil n
  solid :=
    ⟨fun b hb => isSpace_of_isDigit (isDigit_of_mem_natDecimal n b hb),
      not_infix_of_not_mem (not_mem_natDecimal (by decide) n)⟩
  noMark := by
    intro m hm hin
    -- every mark starts with a byte that is no digit
    have hhead : ∀ m ∈ marks, ∃ b ∈ m, isDigit b = false := by decide
    obtain ⟨b, hb, hdigit⟩ := hhead m hm
    exact not_mem_natDecimal hdigit n (hin.mem hb)
  noMarkup := by
    intro b hb
    have hdigit : ∀ b ∈ markupBytes, isDigit b = false := by decide +kernel
    exact not_mem_natDecimal (hdigit b hb) n

end FolioGrid.Text
