/-
  FolioGrid.Proofs.Text.Lines
  ────────────────────────────────
  **LINES.**

  Cutting a text into lines and joining lines are inverse to each other
  (`joinLines_lines`, `lines_joinLines`), and a pattern that holds no line feed
  stands on one line (`infix_joinLines_iff`).
-/
import FolioGrid.Proofs.Text.Occurrence

namespace FolioGrid.Text

/-- The pieces of a text are those of the library's split. -/
theorem pieces_eq_splitOn (b : UInt8) (t : Text) : pieces b t = t.splitOn b := by
  induction t with
  | nil => rfl
  | cons c t ih =>
    -- both begin a new piece at the separator, and lengthen the first one elsewhere
    show pieces.step b c (pieces b t) = _
    rw [ih, List.splitOn_cons_eq_if_modifyHead]
    cases h : t.splitOn b with
    | nil => exact absurd h (List.splitOn_ne_nil b t)
    | cons piece rest =>
      by_cases hc : c = b
      · simp [pieces.step, hc]
      · simp [pieces.step, hc]

/-- A text with a separator in it falls apart there. -/
theorem pieces_append_cons (b : UInt8) (t u : Text) :
    pieces b (t ++ b :: u) = pieces b t ++ pieces b u := by
  rw [pieces_eq_splitOn, pieces_eq_splitOn, pieces_eq_splitOn, List.splitOn_append_cons_self]

/-- A text without a separator is one piece. -/
theorem pieces_of_not_mem {b : UInt8} {t : Text} (h : b ∉ t) : pieces b t = [t] := by
  rw [pieces_eq_splitOn, List.splitOn_eq_singleton h]

/-- **The lines of a text make the text.** -/
theorem joinLines_lines (t : Text) : joinLines (lines t) = t := by
  unfold joinLines lines
  rw [pieces_eq_splitOn, List.intercalate_splitOn]

/-- And lines that hold no line feed are the lines of the text that they make. -/
theorem lines_joinLines {ls : List Text} (hne : ls ≠ []) (h : ∀ l ∈ ls, lineFeed ∉ l) :
    lines (joinLines ls) = ls := by
  unfold joinLines lines
  rw [pieces_eq_splitOn, List.splitOn_intercalate _ h hne]

/-- Even an empty text has a line. -/
theorem lines_ne_nil (t : Text) : lines t ≠ [] := by
  unfold lines
  rw [pieces_eq_splitOn]
  exact List.splitOn_ne_nil _ t

theorem lines_append_cons (t u : Text) : lines (t ++ lineFeed :: u) = lines t ++ lines u :=
  pieces_append_cons lineFeed t u

/-- The first line is followed by a line feed, if others come behind it. -/
theorem joinLines_cons {ls : List Text} (l : Text) (h : ls ≠ []) :
    joinLines (l :: ls) = l ++ lineFeed :: joinLines ls := by
  unfold joinLines
  rw [List.intercalate_cons_of_ne_nil h, List.append_assoc, List.singleton_append]

/-- What stands behind the first line does not depend on it. -/
theorem exists_joinLines_cons (ls : List Text) : ∃ t, ∀ l, joinLines (l :: ls) = l ++ t := by
  by_cases hls : ls = []
  · exact ⟨[], fun l => by rw [hls, List.append_nil]; exact List.intercalate_singleton⟩
  · exact ⟨lineFeed :: joinLines ls, fun l => joinLines_cons l hls⟩

/-- A line feed behind the last line starts an empty one. -/
theorem lines_joinLines_concat {ls : List Text} (hne : ls ≠ []) (h : ∀ l ∈ ls, lineFeed ∉ l) :
    lines (joinLines ls ++ [lineFeed]) = ls ++ [[]] := by
  rw [lines_append_cons, lines_joinLines hne h]
  rfl

/-- Lines and lines are joined with a line feed between them. -/
theorem joinLines_append {ls ms : List Text} (hls : ls ≠ []) (hms : ms ≠ []) :
    joinLines (ls ++ ms) = joinLines ls ++ lineFeed :: joinLines ms := by
  induction ls with
  | nil => exact absurd rfl hls
  | cons l ls ih =>
    by_cases hne : ls = []
    · rw [hne, List.singleton_append, joinLines_cons l hms]
      simp [joinLines]
    · rw [List.cons_append, joinLines_cons l (by simp [hne]), joinLines_cons l hne, ih hne,
        List.append_assoc, List.cons_append]

/-- A text may stand among lines as it is, or as the lines that it has. -/
theorem joinLines_lines_append (t : Text) (ls : List Text) :
    joinLines (lines t ++ ls) = joinLines (t :: ls) := by
  by_cases hls : ls = []
  · rw [hls, List.append_nil, joinLines_lines]
    exact List.intercalate_singleton.symm
  · rw [joinLines_append (lines_ne_nil t) hls, joinLines_lines, joinLines_cons t hls]

/-- Any other byte in front of a text joins its first line. -/
theorem exists_lines_cons {b : UInt8} (hb : b ≠ lineFeed) (t : Text) :
    ∃ first rest, lines t = first :: rest ∧ lines (b :: t) = (b :: first) :: rest := by
  obtain ⟨first, rest, ht⟩ := List.exists_cons_of_ne_nil (lines_ne_nil t)
  refine ⟨first, rest, ht, ?_⟩
  unfold lines at ht ⊢
  rw [pieces_eq_splitOn] at ht ⊢
  rw [List.splitOn_cons_eq_if_modifyHead, if_neg (by simpa using hb), ht]
  rfl

/-- And so does any text on one line. -/
theorem exists_lines_append {p : Text} (hp : lineFeed ∉ p) (t : Text) :
    ∃ first rest, lines t = first :: rest ∧ lines (p ++ t) = (p ++ first) :: rest := by
  induction p with
  | nil =>
    obtain ⟨first, rest, ht⟩ := List.exists_cons_of_ne_nil (lines_ne_nil t)
    exact ⟨first, rest, ht, ht⟩
  | cons b p ih =>
    rw [List.mem_cons, not_or] at hp
    obtain ⟨first, rest, ht, hpt⟩ := ih hp.2
    obtain ⟨first', rest', hpt', hbpt⟩ := exists_lines_cons (Ne.symm hp.1) (p ++ t)
    obtain ⟨rfl, rfl⟩ := List.cons.inj (hpt'.symm.trans hpt)
    exact ⟨first, rest', ht, hbpt⟩

/-- No line holds a line feed. -/
theorem lineFeed_not_mem_of_mem_lines {t l : Text} (h : l ∈ lines t) : lineFeed ∉ l := by
  induction t generalizing l with
  | nil =>
    rw [List.mem_singleton.1 (show l ∈ [[]] from h)]
    exact List.not_mem_nil
  | cons b t ih =>
    by_cases hb : b = lineFeed
    · rw [hb, ← List.nil_append (lineFeed :: t), lines_append_cons] at h
      rcases List.mem_append.1 h with h | h
      · rw [List.mem_singleton.1 (show l ∈ [[]] from h)]
        exact List.not_mem_nil
      · exact ih h
    · obtain ⟨first, rest, ht, hbt⟩ := exists_lines_cons hb t
      rw [ht] at ih
      rw [hbt] at h
      rcases List.mem_cons.1 h with rfl | h
      · intro hmem
        rcases List.mem_cons.1 hmem with hmem | hmem
        · exact hb hmem.symm
        · exact ih List.mem_cons_self hmem
      · exact ih (List.mem_cons_of_mem first h)

/-- What is appended to the last line is appended to the text. -/
theorem joinLines_concat_append (above : List Text) (last u : Text) :
    joinLines (above ++ [last ++ u]) = joinLines (above ++ [last]) ++ u := by
  induction above with
  | nil => simp [joinLines]
  | cons l above ih =>
    rw [List.cons_append, List.cons_append, joinLines_cons _ (by simp), joinLines_cons _ (by simp),
      ih, List.append_assoc, List.cons_append]

/-- A text has a last line, and what is added to the text is added to it. -/
theorem exists_last_line (t : Text) :
    ∃ above last, lines t = above ++ [last]
      ∧ ∀ u, lineFeed ∉ u → lines (t ++ u) = above ++ [last ++ u] := by
  obtain ⟨above, last, hlines⟩ : ∃ above last, lines t = above ++ [last] :=
    ⟨_, _, (List.dropLast_concat_getLast (lines_ne_nil t)).symm⟩
  refine ⟨above, last, hlines, ?_⟩
  intro u hu
  -- the lines with the last one lengthened are lines, so joining is undone
  have hmem : ∀ l ∈ above ++ [last], lineFeed ∉ l := by
    rw [← hlines]
    exact fun l => lineFeed_not_mem_of_mem_lines
  rw [← joinLines_lines t, hlines, ← joinLines_concat_append]
  refine lines_joinLines (by simp) ?_
  intro l hl
  rcases List.mem_append.1 hl with hl | hl
  · exact hmem l (List.mem_append_left _ hl)
  · rw [List.mem_singleton.1 hl, List.mem_append, not_or]
    exact ⟨hmem last (List.mem_append_right _ (List.mem_singleton_self last)), hu⟩

/-- Bytes may be dropped line by line, as long as the line feeds stay. -/
theorem filter_joinLines {p : UInt8 → Bool} (hp : p lineFeed = true) (ls : List Text) :
    (joinLines ls).filter p = joinLines (ls.map (List.filter p)) := by
  induction ls with
  | nil => rfl
  | cons l ls ih =>
    by_cases hls : ls = []
    · simp [hls, joinLines]
    · rw [List.map_cons, joinLines_cons l hls, joinLines_cons _ (by simpa using hls),
        List.filter_append, List.filter_cons_of_pos hp, ih]

/-- A pattern without line feed occurs in lines exactly if it occurs in one. -/
theorem infix_joinLines_iff {p : Text} (hp : p ≠ []) (hlf : lineFeed ∉ p) {ls : List Text} :
    p <:+: joinLines ls ↔ ∃ l ∈ ls, p <:+: l := by
  induction ls with
  | nil => simpa [joinLines] using hp
  | cons l ls ih =>
    by_cases hls : ls = []
    · simp [hls, joinLines]
    · rw [joinLines_cons l hls, infix_append_cons_iff hlf, ih]
      simp only [List.mem_cons, exists_eq_or_imp]

/-- A line stands in the text whose line it is. -/
theorem isInfix_of_mem_lines {t l : Text} (h : l ∈ lines t) : l <:+: t := by
  by_cases hl : l = []
  · rw [hl]
    exact List.nil_infix
  · have hin := (infix_joinLines_iff hl (lineFeed_not_mem_of_mem_lines h)).2 ⟨l, h, List.infix_rfl⟩
    rwa [joinLines_lines] at hin

end FolioGrid.Text
