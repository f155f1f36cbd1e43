/-
  FolioGrid.Proofs.Text.Glyphs
  ────────────────────────────────
  **GLYPHS ARE CHARACTERS.**

  The glyphs of a well-formed text are the bytes of its characters, one by one
  (`glyphs_encode`), so that to drop glyphs is to drop characters.  What is left
  of a cleaned text are characters that are no punctuation, and in a text made
  of these no mark occurs, not even across two of them
  (`MadeOf.not_infix_of_mem_marks`).
-/
import FolioGrid.Proofs.Text.Characters
import FolioGrid.Text.Punctuation

namespace FolioGrid.Text

variable {P : Char → Prop} {t : Text}

/-! ## §1. Glyphs. -/

/-- The first byte of a character says how many there are. -/
theorem glyphWidth_of_utf8EncodeChar {c : Char} {lead : UInt8} {rest : Text}
    (h : String.utf8EncodeChar c = lead :: rest) : glyphWidth lead = rest.length + 1 := by
  have hwidth : ∀ n : Nat, n < 256 → glyphWidth (UInt8.ofNat n)
      = if n < 192 then 1 else if n < 224 then 2 else if n < 240 then 3
        else if n < 248 then 4 else 1 := by
    intro n hn
    have hval : (UInt8.ofNat n).toNat = n := by rw [UInt8.toNat_ofNat', Nat.mod_eq_of_lt hn]
    simp only [glyphWidth, UInt8.lt_iff_toNat_lt, hval, UInt8.reduceToNat]
  -- one case for each length of a character
  unfold String.utf8EncodeChar at h
  dsimp only at h
  split at h
  · cases h
    rw [hwidth _ (by omega), if_pos (by omega)]
    rfl
  split at h
  · cases h
    rw [hwidth _ (by omega), if_neg (by omega), if_pos (by omega)]
    rfl
  split at h
  · cases h
    rw [hwidth _ (by omega), if_neg (by omega), if_neg (by omega), if_pos (by omega)]
    rfl
  · cases h
    rw [hwidth _ (by omega), if_neg (by omega), if_neg (by omega), if_neg (by omega),
      if_pos (by omega)]
    rfl

/-- **The glyphs of a well-formed text are its characters.** -/
theorem glyphs_encode (cs : List Char) : glyphs (encode cs) = cs.map String.utf8EncodeChar := by
  induction cs with
  | nil =>
    show glyphs [] = []
    rw [glyphs]
  | cons c cs ih =>
    obtain ⟨lead, rest, hc, -, -⟩ := exists_lead c
    have hwidth : glyphWidth lead - 1 = rest.length := by
      rw [glyphWidth_of_utf8EncodeChar hc]
      rfl
    rw [encode_cons, hc, List.cons_append, glyphs, hwidth, List.take_left, List.drop_left, ih,
      List.map_cons, hc]

theorem MadeOf.of_mem_glyphs (h : MadeOf P t) : ∀ g ∈ glyphs t, MadeOf P g := by
  obtain ⟨cs, rfl, hcs⟩ := h
  rw [glyphs_encode]
  intro g hg
  obtain ⟨c, hc, rfl⟩ := List.mem_map.1 hg
  exact ⟨[c], List.append_nil _, fun a ha => by rw [List.mem_singleton.1 ha]; exact hcs c hc⟩

/-! ## §2. Punctuation. -/

/-- A character that is no punctuation. -/
def Unpunctuated (c : Char) : Prop := c ∉ punctuation.toList

/-- Dropping glyphs drops the characters whose bytes they are. -/
theorem dropGlyphs_encode (unwanted : List Text) (cs : List Char) :
    dropGlyphs unwanted (encode cs)
      = encode (cs.filter fun c => !unwanted.contains (String.utf8EncodeChar c)) := by
  unfold dropGlyphs
  rw [glyphs_encode, List.filter_map, ← List.flatMap_def]
  rfl

theorem MadeOf.stripBookMarks (h : MadeOf P t) : MadeOf P (stripBookMarks t) := by
  obtain ⟨cs, rfl, hcs⟩ := h
  refine ⟨_, (dropGlyphs_encode bookMarks cs).symm, ?_⟩
  intro c hc
  exact hcs c (List.mem_filter.1 hc).1

theorem MadeOf.stripPunctuation (h : MadeOf P t) :
    MadeOf (fun c => P c ∧ Unpunctuated c) (stripPunctuation t) := by
  obtain ⟨cs, rfl, hcs⟩ := h
  refine ⟨_, (dropGlyphs_encode marks cs).symm, ?_⟩
  intro c hc
  obtain ⟨hmem, hkept⟩ := List.mem_filter.1 hc
  refine ⟨hcs c hmem, ?_⟩
  intro hpunctuation
  have hmark : String.utf8EncodeChar c ∈ marks := List.mem_map_of_mem hpunctuation
  rw [List.contains_iff_mem.2 hmark] at hkept
  cases hkept

/-- What is left of a cleaned text is no punctuation. -/
theorem MadeOf.clean (h : WellFormed t) : MadeOf Unpunctuated (clean t) :=
  h.stripBookMarks.stripPunctuation.mono fun _ hc => hc.2

/-- **In a text without punctuation characters no mark occurs.** -/
theorem MadeOf.not_infix_of_mem_marks (h : MadeOf Unpunctuated t) : ∀ m ∈ marks, ¬ m <:+: t := by
  obtain ⟨cs, rfl, hcs⟩ := h
  intro m hm hin
  obtain ⟨c, hc, rfl⟩ := List.mem_map.1 hm
  exact hcs c (mem_of_infix_encode hin) hc

/-- And a well-formed text in which no mark occurs has no punctuation. -/
theorem MadeOf.of_noMarks (h : WellFormed t) (hmarks : ∀ m ∈ marks, ¬ m <:+: t) :
    MadeOf Unpunctuated t := by
  obtain ⟨cs, rfl, -⟩ := h
  refine ⟨cs, rfl, ?_⟩
  intro c hc hpunctuation
  refine hmarks _ (List.mem_map_of_mem hpunctuation) ?_
  have hin : String.utf8EncodeChar c <:+: (cs.map String.utf8EncodeChar).flatten :=
    List.infix_of_mem_flatten (List.mem_map_of_mem hc)
  rwa [← List.flatMap_def] at hin

end FolioGrid.Text
