/-
  FolioGrid.Proofs.GridMarkup.Order
  ────────────────────────────────
  **MARKS ONE BEHIND THE OTHER.**

  A document of the grid is complete if its four marks stand in it in their
  order (`InOrder`).  Behind the preamble three of them always do, since each
  is an entry of its own or the head of one (`inOrder_behindPreamble`).
-/
import FolioGrid.GridMarkup.Document
import FolioGrid.Proofs.Text.Blank
import FolioGrid.Proofs.Text.Lines

namespace FolioGrid

open FolioGrid.Text FolioGrid.Markup

/-! ## §1. Order. -/

/-- Texts that occur in a text one behind the other, without overlap. -/
def InOrder : List Text → Text → Prop
  | [], _ => True
  | p :: ps, t => ∃ x y, t = x ++ p ++ y ∧ InOrder ps y

variable {p t u l : Text} {ps ls : List Text}

theorem InOrder.infix_head (h : InOrder (p :: ps) t) : p <:+: t := by
  obtain ⟨x, y, rfl, -⟩ := h
  exact ⟨x, y, rfl⟩

/-- A text in front changes nothing. -/
theorem InOrder.append_left (u : Text) (h : InOrder ps t) : InOrder ps (u ++ t) := by
  cases ps with
  | nil => trivial
  | cons p ps =>
    obtain ⟨x, y, rfl, hy⟩ := h
    refine ⟨u ++ x, y, ?_, hy⟩
    rw [List.append_assoc, List.append_assoc, List.append_assoc]

/-- One text more, in front of all the others. -/
theorem InOrder.cons (hp : p <:+: u) (h : InOrder ps t) : InOrder (p :: ps) (u ++ t) := by
  obtain ⟨x, y, rfl⟩ := hp
  refine ⟨x, y ++ t, ?_, h.append_left y⟩
  rw [List.append_assoc]

theorem InOrder.infix_of_mem (h : InOrder ps t) : ∀ p ∈ ps, p <:+: t := by
  induction ps generalizing t with
  | nil => simp
  | cons q ps ih =>
    intro p hp
    rcases List.mem_cons.1 hp with rfl | hp
    · exact h.infix_head
    · obtain ⟨x, y, rfl, hy⟩ := h
      exact (ih hy p hp).trans (List.suffix_append (x ++ q) y).isInfix

/-- Texts one behind the other are in order. -/
theorem inOrder_flatten (ps : List Text) : InOrder ps ps.flatten := by
  induction ps with
  | nil => trivial
  | cons p ps ih =>
    rw [List.flatten_cons]
    exact InOrder.cons (List.infix_refl p) ih

/-- A pattern that cannot run over the separator stands on one of its sides. -/
theorem inOrder_cons_append_cons_iff {b : UInt8} (hb : b ∉ p) (h : InOrder ps t) :
    InOrder (p :: ps) (u ++ b :: t) ↔ p <:+: u ∨ InOrder (p :: ps) t := by
  constructor
  · rintro ⟨x, y, heq, hy⟩
    rw [List.append_assoc] at heq
    rcases List.append_eq_append_iff.1 heq with ⟨z, hx, hz⟩ | ⟨z, hu, hz⟩
    · -- the pattern begins behind the separator, or at it
      cases z with
      | nil =>
        cases p with
        | nil => exact Or.inl List.nil_infix
        | cons c q =>
          cases hz
          exact absurd List.mem_cons_self hb
      | cons c z =>
        cases hz
        exact Or.inr ⟨z, y, (List.append_assoc z p y).symm, hy⟩
    · -- it begins in front, so it ends there as well
      refine Or.inl ?_
      have hpre : p <+: z ++ b :: t := ⟨y, hz⟩
      rw [prefix_append_cons_iff hb] at hpre
      rw [hu]
      exact hpre.isInfix.trans (List.suffix_append x z).isInfix
  · rintro (hp | hp)
    · exact InOrder.cons hp (h.append_left [b])
    · rw [List.append_cons]
      exact hp.append_left _

/-- A line more, which holds one text more. -/
theorem InOrder.cons_line (hp : p <:+: l) (hls : ls ≠ []) (h : InOrder ps (joinLines ls)) :
    InOrder (p :: ps) (joinLines (l :: ls)) := by
  rw [joinLines_cons l hls]
  exact InOrder.cons hp (h.append_left [lineFeed])

/-- Lines in front change nothing. -/
theorem InOrder.append_lines (above : List Text) (hls : ls ≠ []) (h : InOrder ps (joinLines ls)) :
    InOrder ps (joinLines (above ++ ls)) := by
  induction above with
  | nil => exact h
  | cons l above ih =>
    rw [List.cons_append, joinLines_cons l (by simp [hls]), List.append_cons]
    exact ih.append_left _

/-! ## §2. Behind the preamble. -/

namespace GridMarkup

/-- What a document holds behind its preamble. -/
def behindPreamble (preserved : Text) (columns : List Column) (footer : Text) : Text :=
  joinLines ([] :: frontEntries preserved ++ ((firstTitle? columns).map heading).toList
    ++ contentEntries columns ++ [[], contentEnd, footerEntry footer, []])

theorem document_eq (s : Settings) (d : Dialect) (before preserved : Text) (columns : List Column)
    (footer : Text) :
    document s d before preserved columns footer
      = preamble s d before ++ lineFeed :: behindPreamble preserved columns footer := by
  unfold document behindPreamble
  rw [← joinLines_cons _ (by simp)]
  rfl

/-- Content that starts with the opening of an environment. -/
def Written.Opened (w : Written) : Prop := ∃ above, w.entries = above ++ [contentBegin]

theorem Written.Opened.push {w : Written} (h : w.Opened) (entry : Text) :
    (w.push entry).Opened := by
  obtain ⟨above, h⟩ := h
  exact ⟨entry :: above, congrArg (entry :: ·) h⟩

theorem Written.Opened.dropBreak {w : Written} (h : w.Opened) : w.dropBreak.Opened := by
  obtain ⟨above, h⟩ := h
  unfold Written.dropBreak
  rw [h]
  cases above with
  | nil =>
    -- the opening itself is no break
    show Written.Opened (if contentBegin = pageBreak then _ else w)
    rw [if_neg (by decide)]
    exact ⟨[], h⟩
  | cons entry above =>
    show Written.Opened
      (if entry = pageBreak then { w with entries := above ++ [contentBegin] } else w)
    split
    · exact ⟨above, rfl⟩
    · exact ⟨entry :: above, h⟩

theorem Written.Opened.add {w : Written} (h : w.Opened) (c : Column) : (w.add c).Opened := by
  -- a heading is the only column that takes anything back, and no more than a break
  cases c with
  | chapter title =>
    show Written.Opened (if w.headed then _ else { w with headed := true })
    split
    · exact (((h.dropBreak.push _).push _).push _).push _
    · exact h
  | newPage =>
    show Written.Opened (if w.entries.head? = some pageBreak then w else w.push pageBreak)
    split
    · exact h
    · exact h.push _
  | stamp markup => exact h.push _
  | single t indent => exact h.push _
  | dual d => exact h.push _

/-- The first entry of the content opens an environment. -/
theorem exists_contentEntries (columns : List Column) :
    ∃ below, contentEntries columns = contentBegin :: below := by
  -- columns are added one by one, each to content that is opened already
  have hrun : ∀ w : Written, w.Opened → (columns.foldl Written.add w).Opened := by
    induction columns with
    | nil => exact fun _ h => h
    | cons c columns ih => exact fun w h => ih (w.add c) (h.add c)
  obtain ⟨above, h⟩ := hrun Written.start ⟨[], rfl⟩
  refine ⟨above.reverse, ?_⟩
  unfold contentEntries
  rw [h, List.reverse_append]
  rfl

/-- A footer that starts with the mark of the end is an entry that does. -/
theorem documentEnd_prefix_footerEntry {footer : Text} (h : endMark "document" <+: footer) :
    endMark "document" <+: footerEntry footer := by
  obtain ⟨w, hw, htrim⟩ := exists_blanks_trimRight footer
  have hpre : endMark "document" <+: trimRight footer := by
    rw [← htrim] at h
    obtain ⟨z, hz⟩ := h
    rcases List.append_eq_append_iff.1 hz with ⟨v, hv, -⟩ | ⟨v, hv, hvw⟩
    · exact ⟨v, hv.symm⟩
    · -- else the closing brace of the mark would be part of a blank
      rcases List.eq_nil_or_concat v with rfl | ⟨v', b, rfl⟩
      · exact ⟨[], by rw [List.append_nil, hv, List.append_nil]⟩
      · rw [List.concat_eq_append] at hv hvw
        have hlast := congrArg List.getLast? hv
        rw [← List.append_assoc, List.getLast?_concat] at hlast
        have hb : b = closeBrace := Option.some.inj (hlast.symm.trans rfl)
        have hmem : closeBrace ∈ w := by
          rw [hvw, hb]
          exact List.mem_append_left _ (List.mem_append_right _ (List.mem_singleton_self _))
        rcases hw.mem hmem with hspace | hwide
        · cases hspace
        · exact absurd hwide (by decide)
  unfold footerEntry
  split
  · exact List.prefix_refl _
  · exact hpre

/-- **What stands behind a preamble is complete**: an environment of columns is
opened and closed, and then the document ends. -/
theorem inOrder_behindPreamble (preserved : Text) (columns : List Column) {footer : Text}
    (h : endMark "document" <+: footer) :
    InOrder [contentBegin, contentEnd, endMark "document"]
      (behindPreamble preserved columns footer) := by
  obtain ⟨below, hcontent⟩ := exists_contentEntries columns
  -- from the last mark to the first, each in a line of its own
  have hfooter : InOrder [endMark "document"] (joinLines [footerEntry footer, []]) :=
    InOrder.cons_line (documentEnd_prefix_footerEntry h).isInfix (by simp) trivial
  have hend : InOrder [contentEnd, endMark "document"]
      (joinLines ((below ++ [[]]) ++ [contentEnd, footerEntry footer, []])) :=
    InOrder.append_lines _ (by simp) (InOrder.cons_line (List.infix_refl _) (by simp) hfooter)
  have hbegin := InOrder.cons_line (List.infix_refl contentBegin) (by simp) hend
  unfold behindPreamble
  rw [hcontent, List.append_assoc]
  refine InOrder.append_lines _ (by simp) ?_
  simpa using hbegin

end GridMarkup

end FolioGrid
