/-
  FolioGrid.Proofs.Text.BlankCharacters
  ────────────────────────────────
  **BLANKS ARE CHARACTERS.**

  In well-formed text the blanks are seven characters (`blanks`), so that what is
  done to blanks is done to a list of characters:

      removeBlanks_encode — to remove blanks drops these characters
      trim_encode_eq_iff  — a text is trimmed if the first and the last of its
                            characters are none of them
-/
import FolioGrid.Proofs.Text.Glyphs
import FolioGrid.Proofs.Text.Plain

namespace FolioGrid.Text

variable {t u : Text} {c : Char} {cs ds : List Char}

/-! ## §1. Removing blanks. -/

theorem blanks_utf8EncodeChar (h : c ∈ blanks) : Blanks wideSpace (String.utf8EncodeChar c) := by
  simp only [blanks, List.mem_cons, List.not_mem_nil, or_false] at h
  rcases h with rfl | rfl | rfl | rfl | rfl | rfl | rfl
  · exact .space (by decide) .nil
  · exact .space (by decide) .nil
  · exact .space (by decide) .nil
  · exact .space (by decide) .nil
  · exact .space (by decide) .nil
  · exact .space (by decide) .nil
  · exact .wide .nil

/-- A text of characters that are no blanks holds none, not even across two of them. -/
theorem solid_encode (h : ∀ c ∈ cs, c ∉ blanks) : Solid (encode cs) where
  space := by
    intro b hb
    rw [← Bool.not_eq_true]
    intro hspace
    obtain ⟨c, hc, hcb⟩ := exists_blank_of_isSpace hspace
    obtain ⟨x, y, hxy⟩ := List.append_of_mem hb
    have hin : String.utf8EncodeChar c <:+: encode cs := by
      refine ⟨x, y, ?_⟩
      rw [hcb, hxy, List.append_assoc, List.singleton_append]
    exact h c (mem_of_infix_encode hin) hc
  wide := fun hwide => h '\u3000' (mem_of_infix_encode hwide) (by decide)

/-- **To remove blanks is to drop the characters that are blanks.** -/
theorem removeBlanks_encode (cs : List Char) :
    removeBlanks (encode cs) = encode (cs.filter (· ∉ blanks)) := by
  induction cs with
  | nil => rfl
  | cons c cs ih =>
    have hseam : (encode cs).head? ≠ some 0x80 := by
      intro hhead
      obtain ⟨rest, hrest⟩ := List.head?_eq_some_iff.1 hhead
      have hopens := MadeOf.opens (P := fun _ => True) ⟨cs, rfl, fun _ _ => trivial⟩
      exact absurd (hopens _ _ hrest) (by decide)
    rw [encode_cons, removeBlanks_append hseam, ih]
    by_cases hc : c ∈ blanks
    · rw [(blanks_utf8EncodeChar hc).removeBlanks_eq, List.filter_cons_of_neg (by simpa using hc),
        List.nil_append]
    · have hone : Solid (encode [c]) := solid_encode fun a ha => by rwa [List.mem_singleton.1 ha]
      rw [encode_cons, show encode [] = [] from rfl, List.append_nil] at hone
      rw [hone.removeBlanks_eq, List.filter_cons_of_pos (by simpa using hc), encode_cons]

/-- No blank is left of a well-formed text. -/
theorem solid_removeBlanks (h : WellFormed t) : Solid (removeBlanks t) := by
  obtain ⟨cs, rfl, -⟩ := h
  rw [removeBlanks_encode]
  exact solid_encode fun c hc => by simpa using (List.mem_filter.1 hc).2

/-! ## §2. Trimming. -/

theorem utf8EncodeChar_injective {a : Char}
    (h : String.utf8EncodeChar a = String.utf8EncodeChar c) : a = c :=
  eq_of_utf8EncodeChar_append (u := []) (v := []) (congrArg (· ++ []) h)

theorem length_utf8EncodeChar_pos (c : Char) : 0 < (String.utf8EncodeChar c).length := by
  obtain ⟨lead, rest, hc, -, -⟩ := exists_lead c
  rw [hc]
  exact Nat.succ_pos rest.length

/-- A text says which characters it is made of. -/
theorem encode_injective (h : encode cs = encode ds) : cs = ds := by
  have hglyphs : cs.map String.utf8EncodeChar = ds.map String.utf8EncodeChar := by
    rw [← glyphs_encode, ← glyphs_encode, h]
  exact (List.map_inj_right fun _ _ => utf8EncodeChar_injective).1 hglyphs

/-- Blanks are made of blank characters. -/
theorem Blanks.exists_encode (h : Blanks wideSpace u) :
    ∃ bs : List Char, encode bs = u ∧ ∀ c ∈ bs, c ∈ blanks := by
  have push : ∀ {c : Char} {bs : List Char}, c ∈ blanks → (∀ a ∈ bs, a ∈ blanks) →
      ∀ a ∈ c :: bs, a ∈ blanks := by
    intro c bs hc hbs
    exact List.forall_mem_cons.2 ⟨hc, hbs⟩
  induction h with
  | nil => exact ⟨[], rfl, fun c hc => absurd hc List.not_mem_nil⟩
  | space hb _ ih =>
    obtain ⟨c, hc, hcb⟩ := exists_blank_of_isSpace hb
    obtain ⟨bs, rfl, hbs⟩ := ih
    exact ⟨c :: bs, by rw [encode_cons, hcb]; rfl, push hc hbs⟩
  | wide _ ih =>
    obtain ⟨bs, rfl, hbs⟩ := ih
    exact ⟨'\u3000' :: bs, rfl, push (by decide) hbs⟩

/-- Characters with no blank at their two ends. -/
structure Flush (cs : List Char) : Prop where
  /-- None stands in front. -/
  head : ∀ c, cs.head? = some c → c ∉ blanks
  /-- None stands behind. -/
  last : ∀ c, cs.getLast? = some c → c ∉ blanks

/-- **A well-formed text is trimmed if no blank stands at the ends of its characters.** -/
theorem trim_encode_eq_iff (cs : List Char) : trim (encode cs) = encode cs ↔ Flush cs := by
  constructor
  · intro htrim
    -- a blank at an end would go, and the text would be shorter then
    have hlength : ∀ ds : List Char, trim (encode cs) = trim (encode ds) →
        (encode cs).length ≤ (encode ds).length := by
      intro ds hds
      rw [htrim] at hds
      rw [hds]
      exact (trim_isInfix (encode ds)).length_le
    constructor
    · intro c hc hblank
      obtain ⟨rest, rfl⟩ := List.head?_eq_some_iff.1 hc
      have hle := hlength rest (by
        rw [encode_cons, trim_blanks_append (blanks_utf8EncodeChar hblank)])
      rw [encode_cons, List.length_append] at hle
      have hone := length_utf8EncodeChar_pos c
      omega
    · intro c hc hblank
      obtain ⟨front, rfl⟩ := List.getLast?_eq_some_iff.1 hc
      have hlast : encode (front ++ [c]) = encode front ++ String.utf8EncodeChar c := by
        rw [encode_append, encode_cons]
        exact congrArg _ (List.append_nil _)
      have hle := hlength front (by
        rw [hlast, trim_append_blanks (blanks_utf8EncodeChar hblank)])
      rw [hlast, List.length_append] at hle
      have hone := length_utf8EncodeChar_pos c
      omega
  · intro hflush
    obtain ⟨u, v, hu, hv, ht⟩ := exists_blanks_trim (encode cs)
    obtain ⟨us, rfl, hus⟩ := hu.exists_encode
    obtain ⟨vs, rfl, hvs⟩ := hv.exists_encode
    obtain ⟨ms, hms, -⟩ : WellFormed (trim (encode cs)) :=
      MadeOf.trim ⟨cs, rfl, fun _ _ => trivial⟩
    rw [← hms, ← encode_append, ← encode_append] at ht
    obtain rfl := encode_injective ht
    -- what would go on either side is a blank at that end
    obtain rfl : us = [] := by
      cases us with
      | nil => rfl
      | cons c us => exact absurd (hus c List.mem_cons_self) (hflush.head c rfl)
    obtain rfl : vs = [] := by
      rcases List.eq_nil_or_concat vs with rfl | ⟨front, c, rfl⟩
      · rfl
      · refine absurd (hvs c (by simp)) (hflush.last c ?_)
        simp
    rw [← hms, List.nil_append, List.append_nil]

end FolioGrid.Text
