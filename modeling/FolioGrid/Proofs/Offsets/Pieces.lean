/-
  FolioGrid.Proofs.Offsets.Pieces
  ────────────────────────────────
  **GLYPHS AND LINES BY OFFSETS.**

  A text is cut at offsets: into glyphs, whose first bytes say how far the next
  one is, and into lines, which end at line feeds.  A glyph that its text does
  not hold as a whole ends with the text.
-/
import FolioGrid.Proofs.Offsets.Basic
import FolioGrid.Proofs.Text.GlyphLists
import FolioGrid.Proofs.Text.Glyphs
import FolioGrid.Proofs.Text.Lines

namespace FolioGrid.Offsets

open FolioGrid.Text

/-! ## §1. Glyphs. -/

/-- The glyphs of a text, in order. -/
def glyphs (t : Text) : Checked (List Text) := go 0
where
  /-- The glyphs from an offset on. -/
  go (i : Nat) : Checked (List Text) :=
    if _h : i < t.length then do
      let lead ← itemAt t i
      let left ← difference t.length i
      let width := min (glyphWidth lead) left
      let glyph ← slice t i width
      if _hwidth : i < i + width then do
        let rest ← go (i + width)
        pure (glyph :: rest)
      else .error .stuck
    else pure []
  termination_by t.length - i

/-- A glyph is as long as its first byte says, or ends with the text. -/
theorem Rest.glyphs_go {t u : Text} {i : Nat} (h : Rest t i u) :
    glyphs.go t i = .ok (Text.glyphs u) := by
  fun_induction Text.glyphs u generalizing i with
  | case1 => rw [glyphs.go, dif_neg h.not_lt]; rfl
  | case2 lead rest ih =>
    obtain ⟨k, hk⟩ := Nat.exists_eq_add_of_le' (glyphWidth_pos lead)
    have hlength := h.length_eq
    rw [List.length_cons] at hlength
    -- a glyph has its first byte and as many more as there are
    have hwidth : min (glyphWidth lead) (t.length - i) = min k rest.length + 1 := by omega
    have hstep : i < i + min (glyphWidth lead) (t.length - i) := by omega
    have hrest : Rest t (i + (min k rest.length + 1)) (rest.drop (min k rest.length)) :=
      h.drop (n := min k rest.length + 1) (by rw [List.length_cons]; omega)
    rw [glyphs.go, dif_pos h.lt, h.itemAt, ok_bind, difference_of_le h.le, ok_bind]
    dsimp only
    rw [h.slice_take, ok_bind, dif_pos hstep, hwidth]
    have hdrop : rest.drop (min k rest.length) = rest.drop (glyphWidth lead - 1) := by
      rw [hk, Nat.add_sub_cancel, List.drop_eq_drop_iff, Nat.min_assoc, Nat.min_self]
    have htake : rest.take (min k rest.length) = rest.take (glyphWidth lead - 1) := by
      rw [hk, Nat.add_sub_cancel, List.take_eq_take_iff, Nat.min_assoc, Nat.min_self]
    rw [ih (hdrop ▸ hrest), List.take_succ_cons, htake]
    rfl

theorem glyphs_eq (t : Text) : glyphs t = .ok (Text.glyphs t) := (Rest.start t).glyphs_go

/-- A text without the glyphs of a list. -/
def dropGlyphs (unwanted : List Text) (t : Text) : Checked Text := do
  let gs ← glyphs t
  pure (gs.filter fun g => !unwanted.contains g).flatten

/-- A text without its punctuation. -/
def stripPunctuation (t : Text) : Checked Text := do
  let unwanted ← glyphs (utf8 punctuation)
  dropGlyphs unwanted t

/-- The marks that are dropped are themselves read as glyphs from the list of them. -/
@[simp] theorem stripPunctuation_eq (t : Text) :
    stripPunctuation t = .ok (Text.stripPunctuation t) := by
  unfold stripPunctuation dropGlyphs
  rw [glyphs_eq, ok_bind, glyphs_eq]
  show Except.ok (Text.dropGlyphs (Text.glyphs (encode punctuation.toList)) t) = _
  rw [glyphs_encode]
  rfl

/-- A text as it goes onto the grid. -/
def clean (t : Text) : Checked Text := do
  let words ← dropGlyphs bookMarks t
  stripPunctuation words

@[simp] theorem clean_eq (t : Text) : clean t = .ok (Text.clean t) := by
  unfold clean dropGlyphs
  rw [glyphs_eq]
  exact stripPunctuation_eq (Text.stripBookMarks t)

/-! ## §2. Lines. -/

/-- A pattern is found inside a text. -/
theorem find?_bounds {pattern t : Text} {start i : Nat} (h : find? pattern t start = some i) :
    start ≤ i ∧ i + pattern.length ≤ t.length := by
  unfold find? at h
  split at h
  · next hstart =>
    obtain ⟨c, hc, rfl⟩ := Option.map_eq_some_iff.1 h
    have hlength := length_of_cut? hc
    rw [List.length_drop] at hlength
    omega
  · cases h

/-- The lines of a text. -/
def lines (t : Text) : Checked (List Text) := go 0
where
  /-- The lines from an offset on. -/
  go (start : Nat) : Checked (List Text) :=
    match _h : find? [lineFeed] t start with
    | none => do
      let last ← sliceFrom t start
      pure [last]
    | some i => do
      let count ← difference i start
      let line ← slice t start count
      let rest ← go (i + 1)
      pure (line :: rest)
  termination_by t.length - start
  decreasing_by
    have hbounds := find?_bounds _h
    rw [List.length_singleton] at hbounds
    omega

/-- A line ends at the line feed that is found, and the next one begins behind it. -/
theorem Rest.lines_go {t u : Text} {i : Nat} (h : Rest t i u) :
    lines.go t i = .ok (Text.lines u) := by
  rw [lines.go]
  split
  · next hnone =>
    rw [h.find?, Option.map_eq_none_iff, cut?_singleton_eq_none_iff] at hnone
    rw [h.sliceFrom, Text.lines, pieces_of_not_mem hnone]
    rfl
  · next j hsome =>
    rw [h.find?] at hsome
    obtain ⟨c, hc, rfl⟩ := Option.map_eq_some_iff.1 hsome
    obtain ⟨hu, hfree⟩ := of_cut?_singleton hc
    rw [hu] at h ⊢
    -- the line that ends here, and those after it
    rw [difference_add, ok_bind, h.slice, ok_bind, h.append.next.lines_go, lines_append_cons,
      show Text.lines c.before = [c.before] from pieces_of_not_mem hfree]
    rfl
termination_by u.length
decreasing_by rw [hu, List.length_append, List.length_cons]; omega

theorem lines_eq (t : Text) : lines t = .ok (Text.lines t) := (Rest.start t).lines_go

end FolioGrid.Offsets
