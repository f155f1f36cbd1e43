/-
  FolioGrid.Proofs.Text.GlyphLists
  ────────────────────────────────
  **GLYPHS THAT WERE CUT APART.**

  A text of any bytes has glyphs, and some glyphs of it, put together again, have
  these as their own glyphs (`glyphs_flatten_of_sublist`).  So a column can be read
  back slot by slot, although nothing marks where a glyph ends: a glyph is as long
  as its first byte says, and only the last one of a text may be shorter.
-/
import FolioGrid.Text.Glyph

namespace FolioGrid.Text

/-- Texts that can be the glyphs of a text, in order: none is empty, and each is as long
as its first byte says, or shorter if it is the last. -/
inductive Successive : List Text → Prop where
  /-- No glyph. -/
  | nil : Successive []
  /-- The last glyph, which may have been cut off. -/
  | last {lead : UInt8} {tail : Text} (h : tail.length < glyphWidth lead) :
      Successive [lead :: tail]
  /-- A glyph in front of others. -/
  | cons {lead : UInt8} {tail : Text} {rest : List Text} (h : tail.length + 1 = glyphWidth lead)
      (hrest : Successive rest) : Successive ((lead :: tail) :: rest)

/-- Every glyph has at least its first byte. -/
theorem glyphWidth_pos (lead : UInt8) : 0 < glyphWidth lead := by
  unfold glyphWidth
  repeat' split
  all_goals omega

/-- The glyphs of a text are whole, but for the last one, which the end of the text may cut
off. -/
theorem successive_glyphs (t : Text) : Successive (glyphs t) := by
  -- one glyph after another; the one that takes all that is left is the last
  fun_induction glyphs t with
  | case1 => exact .nil
  | case2 lead rest ih =>
    have hpos := glyphWidth_pos lead
    by_cases hlen : glyphWidth lead - 1 ≤ rest.length
    · apply Successive.cons _ ih
      rw [List.length_take_of_le hlen]
      omega
    · have hdrop : rest.drop (glyphWidth lead - 1) = [] := List.drop_eq_nil_iff.2 (by omega)
      rw [hdrop, show glyphs [] = [] by rw [glyphs]]
      apply Successive.last
      rw [List.length_take]
      omega

/-- **What can be glyphs, are the glyphs** of the text that they make up. -/
theorem Successive.glyphs_flatten {gs : List Text} (h : Successive gs) :
    glyphs gs.flatten = gs := by
  induction h with
  | nil => rw [List.flatten_nil, glyphs]
  | @last lead tail h =>
    rw [List.flatten_cons, List.flatten_nil, List.append_nil, glyphs,
      List.take_of_length_le (by omega), List.drop_of_length_le (by omega)]
    rw [glyphs]
  | @cons lead tail rest h _ ih =>
    have hwidth : glyphWidth lead - 1 = tail.length := by omega
    rw [List.flatten_cons, List.cons_append, glyphs, hwidth, List.take_left, List.drop_left, ih]

/-- None of them is empty. -/
theorem Successive.ne_nil {gs : List Text} (h : Successive gs) : ∀ g ∈ gs, g ≠ [] := by
  induction h with
  | nil => simp
  | last h => simp
  | cons h _ ih => simpa using ih

theorem Successive.sublist {gs hs : List Text} (h : Successive gs) (hsub : hs.Sublist gs) :
    Successive hs := by
  induction h generalizing hs with
  | nil =>
    rw [List.sublist_nil.1 hsub]
    exact .nil
  | last h =>
    cases hsub with
    | cons _ hsub =>
      rw [List.sublist_nil.1 hsub]
      exact .nil
    | cons_cons _ hsub =>
      rw [List.sublist_nil.1 hsub]
      exact .last h
  | cons h _ ih =>
    cases hsub with
    | cons _ hsub => exact ih hsub
    | cons_cons _ hsub => exact .cons h (ih hsub)

/-- **Some glyphs of a text are the glyphs of what they make up**, whatever its bytes. -/
theorem glyphs_flatten_of_sublist {t : Text} {gs : List Text} (h : gs.Sublist (glyphs t)) :
    glyphs gs.flatten = gs :=
  ((successive_glyphs t).sublist h).glyphs_flatten

end FolioGrid.Text
