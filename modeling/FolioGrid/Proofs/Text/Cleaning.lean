/-
  FolioGrid.Proofs.Text.Cleaning
  ────────────────────────────────
  **TO CLEAN A TEXT IS TO LEAVE OUT GLYPHS.**

  Glyphs are found again where others have been taken out from between them, so what
  has been dropped stays dropped, and what is kept keeps its shape.  This needs no
  well-formed text: a first byte that takes the bytes of a mark into its own glyph hides
  the mark for good.

      glyphs_dropGlyphs     — the glyphs that are left are those not dropped
      dropGlyphs_dropGlyphs — to drop some of them first makes no difference

  Main result: `glyphs_clean`.
-/
import FolioGrid.Proofs.Text.GlyphLists
import FolioGrid.Proofs.Text.Glyphs

namespace FolioGrid.Text

variable {t : Text} {unwanted fewer : List Text} {cs : List Char}

/-! ## §1. Dropping glyphs. -/

theorem glyphs_dropGlyphs (unwanted : List Text) (t : Text) :
    glyphs (dropGlyphs unwanted t) = (glyphs t).filter (· ∉ unwanted) := by
  unfold dropGlyphs
  rw [glyphs_flatten_of_sublist List.filter_sublist]
  refine List.filter_congr fun g _ => ?_
  simp

/-- Glyphs that are dropped may be dropped beforehand. -/
theorem dropGlyphs_dropGlyphs (h : fewer ⊆ unwanted) (t : Text) :
    dropGlyphs unwanted (dropGlyphs fewer t) = dropGlyphs unwanted t := by
  have hkept : glyphs (dropGlyphs unwanted (dropGlyphs fewer t))
      = glyphs (dropGlyphs unwanted t) := by
    rw [glyphs_dropGlyphs, glyphs_dropGlyphs, glyphs_dropGlyphs, List.filter_filter]
    refine List.filter_congr fun g _ => ?_
    by_cases hg : g ∈ fewer
    · simp [hg, h hg]
    · simp [hg]
  rw [← flatten_glyphs (dropGlyphs unwanted (dropGlyphs fewer t)), hkept, flatten_glyphs]

/-! ## §2. Marks. -/

/-- The marks are the glyphs of all punctuation, written one behind the other. -/
theorem marks_eq_glyphs : marks = glyphs (utf8 punctuation) := (glyphs_encode _).symm

theorem bookMarks_subset_marks : bookMarks ⊆ marks := by decide +kernel

/-- The brackets around book titles are punctuation like any other. -/
theorem clean_eq_stripPunctuation (t : Text) : clean t = stripPunctuation t :=
  dropGlyphs_dropGlyphs bookMarks_subset_marks t

theorem clean_clean (t : Text) : clean (clean t) = clean t := by
  rw [clean_eq_stripPunctuation, clean_eq_stripPunctuation]
  exact dropGlyphs_dropGlyphs (List.Subset.refl marks) t

/-! ## §3. Glyphs and characters. -/

/-- The characters of a text are those whose bytes its glyphs are. -/
theorem encode_eq_iff : encode cs = t ↔ glyphs t = cs.map String.utf8EncodeChar := by
  constructor
  · rintro rfl
    exact glyphs_encode cs
  · intro h
    rw [← flatten_glyphs t, h, ← List.flatMap_def]
    rfl

/-- **Glyphs are stable, and cleaning is a projection**, whatever the bytes.  The glyphs of
a text give it back; some of them, put together, have these as their own; so to clean is to
drop the marks among the glyphs, and to clean again changes nothing.  A well-formed text has
its characters as glyphs, and no other text has such glyphs. -/
theorem glyphs_clean (t : Text) :
    (glyphs t).flatten = t
      ∧ (∀ gs, gs.Sublist (glyphs t) → glyphs gs.flatten = gs)
      ∧ clean t = stripPunctuation t
      ∧ glyphs (clean t) = (glyphs t).filter (· ∉ glyphs (utf8 punctuation))
      ∧ clean (clean t) = clean t
      ∧ ∀ cs : List Char, encode cs = t ↔ glyphs t = cs.map String.utf8EncodeChar := by
  refine ⟨flatten_glyphs t, ?_, clean_eq_stripPunctuation t, ?_, clean_clean t, ?_⟩
  · intro gs hgs
    exact glyphs_flatten_of_sublist hgs
  · rw [clean_eq_stripPunctuation, ← marks_eq_glyphs]
    exact glyphs_dropGlyphs marks t
  · intro cs
    exact encode_eq_iff

/-- A comma of which the first two bytes belong to the glyph of a byte in front, and its
last byte is a glyph of its own. -/
def hiddenComma : Text := 0xE4 :: utf8 "，《甲》"

/-- Only the brackets are marks here, and what stands on either side of the left one stays
apart when it is gone. -/
theorem glyphs_hiddenComma :
    [[0x8C], utf8 "甲"].Sublist (glyphs hiddenComma)
      ∧ glyphs (0x8C :: utf8 "甲") = [[0x8C], utf8 "甲"]
      ∧ glyphs (clean hiddenComma) = [[0xE4, 0xEF, 0xBC], [0x8C], utf8 "甲"] := by
  have hglyphs : glyphs hiddenComma
      = [[0xE4, 0xEF, 0xBC], [0x8C], utf8 "《", utf8 "甲", utf8 "》"] := by decide +kernel
  obtain ⟨-, hstable, -, hclean, -⟩ := glyphs_clean hiddenComma
  have hsome : [[0x8C], utf8 "甲"].Sublist (glyphs hiddenComma) := by
    rw [hglyphs]
    decide +kernel
  refine ⟨hsome, hstable _ hsome, ?_⟩
  rw [hclean, hglyphs]
  decide +kernel

end FolioGrid.Text
