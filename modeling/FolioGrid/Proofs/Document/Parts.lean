/-
  FolioGrid.Proofs.Document.Parts
  ────────────────────────────────
  **THE PARTS OF A DOCUMENT.**

  How a document falls into parts, from both sides.  Of any text that has
  parts, the preamble ends with the first mark at which the document begins
  (`Parts.preamble_of_ofText`) and the footer starts with a mark at which it
  ends (`Parts.footer_of_ofText`).  And a body between the bare marks
  (`inDocument`) is found again: `Document.ofText_inDocument`.
-/
import FolioGrid.Conversion
import FolioGrid.Proofs.Failure
import FolioGrid.Proofs.Text.Lines

namespace FolioGrid

open FolioGrid.Text FolioGrid.Markup

/-! ## §1. Parts of any text. -/

/-- What is read from the parts of a document. -/
def Parts.read (parts : Parts) (d : Dialect) : Document :=
  let r := readLines d (bodyLines parts.body)
  { preamble := parts.preamble
    preserved := parts.preserved
    blocks := d.finish r.blocks
    footer := parts.footer
    unbalanced := r.unbalanced
    unrecognized := r.unrecognized
    notices := r.notices }

theorem Document.ofText_eq_ok_iff {d : Dialect} {t : Text} {doc : Document} :
    Document.ofText d t = .ok doc ↔ ∃ parts, Parts.ofText t = .ok parts ∧ parts.read d = doc := by
  unfold Document.ofText
  rw [bind_eq_ok]
  constructor
  · rintro ⟨parts, hparts, h⟩
    exact ⟨parts, hparts, Except.ok.inj h⟩
  · rintro ⟨parts, hparts, h⟩
    exact ⟨parts, hparts, congrArg Except.ok h⟩

/-- A conversion that succeeds is made of what was read and of its columns. -/
theorem exists_of_convert {s : Settings} {d : Dialect} {content : Text} {r : Conversion}
    (h : (convert s d content).value = .ok r) :
    ∃ doc columns, Document.ofText d content = .ok doc ∧ layout s doc.blocks = .ok columns
      ∧ r.output = doc.render s d columns ∧ r.warnings = doc.warnings := by
  unfold convert at h
  split at h
  · cases h
  · next doc hdoc =>
    unfold Document.convert at h
    dsimp only at h
    split at h
    · cases h
    · next columns hcolumns =>
      cases h
      exact ⟨doc, columns, hdoc, hcolumns, rfl, rfl⟩

/-- The two marks that cut a text into parts. -/
theorem Parts.exists_cuts {t : Text} {parts : Parts} (h : Parts.ofText t = .ok parts) :
    ∃ b e, cut? documentBegin t = some b ∧ cut? documentEnd t = some e
      ∧ parts.preamble = b.before ++ b.found ∧ parts.footer = e.found ++ e.after := by
  unfold Parts.ofText at h
  split at h
  · next b e hb he =>
    split at h
    · cases h
    · cases h
      exact ⟨b, e, hb, he, rfl, rfl⟩
  · cases h

/-- A preamble ends with the mark of the document's begin, which does not occur
before. -/
theorem Parts.preamble_of_ofText {t : Text} {parts : Parts} (h : Parts.ofText t = .ok parts) :
    ∃ above, parts.preamble = above ++ documentBegin
      ∧ ¬ documentBegin <:+: above ++ documentBegin.dropLast := by
  obtain ⟨b, e, hb, -, hpreamble, -⟩ := Parts.exists_cuts h
  obtain ⟨-, hfound, hfirst⟩ := (cut?_eq_some_iff (by decide)).1 hb
  rw [hfound] at hpreamble
  exact ⟨b.before, hpreamble, hfirst⟩

/-- A footer starts with the mark of the document's end. -/
theorem Parts.footer_of_ofText {t : Text} {parts : Parts} (h : Parts.ofText t = .ok parts) :
    documentEnd <+: parts.footer := by
  obtain ⟨b, e, -, he, -, hfooter⟩ := Parts.exists_cuts h
  rw [hfooter, found_of_cut? he]
  exact List.prefix_append _ _

/-! ## §2. A body between the bare marks. -/

/-- The mark at which the body of a bare document begins. -/
def bodyBegin : Text := beginMark "正文"

/-- The mark at which it ends. -/
def bodyEnd : Text := endMark "正文"

/-- A body in its environment, each mark on a line. -/
def environment (body : Text) : Text := bodyBegin ++ lineFeed :: (body ++ lineFeed :: bodyEnd)

/-- A document with a body and nothing else but the marks. -/
def inDocument (body : Text) : Text :=
  documentBegin ++ lineFeed :: (environment body ++ lineFeed :: documentEnd)

variable {body : Text}

theorem cutAny?_bodyBegins (t : Text) :
    cutAny? bodyBegins (bodyBegin ++ t) = some ⟨[], bodyBegin, t⟩ :=
  cutAny?_cons_append bodyBegin _ t

theorem cutAny?_bodyEnds (t : Text) :
    cutAny? bodyEnds (bodyEnd ++ t) = some ⟨[], bodyEnd, t⟩ :=
  cutAny?_cons_append bodyEnd _ t

/-- The end of a bare document is found behind its body. -/
theorem cut?_documentEnd_inDocument (h : ¬ documentEnd <:+: body) :
    cut? documentEnd (inDocument body)
      = some ⟨documentBegin ++ lineFeed :: (environment body ++ [lineFeed]), documentEnd, []⟩ := by
  -- the mark holds no line feed, so it would stand in one of the lines in front
  have hlf : lineFeed ∉ documentEnd := by decide
  have hfront : ¬ documentEnd <:+: documentBegin ++ lineFeed :: environment body := by
    unfold environment
    rw [infix_append_cons_iff hlf, infix_append_cons_iff hlf, infix_append_cons_iff hlf]
    simp only [not_or]
    exact ⟨by decide +kernel, by decide +kernel, h, by decide +kernel⟩
  have hskip : cutAny? [documentEnd]
      ((documentBegin ++ lineFeed :: environment body) ++ lineFeed :: documentEnd) = _ :=
    cutAny?_append_cons (fun p hp => by rwa [List.mem_singleton.1 hp])
      (fun p hp => by rwa [List.mem_singleton.1 hp])
  have hlast : cutAny? [documentEnd] documentEnd = some ⟨[], documentEnd, []⟩ :=
    cut?_append documentEnd []
  rw [hlast, List.append_assoc, List.cons_append] at hskip
  rw [show cut? documentEnd (inDocument body) = _ from hskip]
  simp

/-- The body of a bare document starts on its second line. -/
theorem splitBody_environment (t : Text) :
    splitBody (lineFeed :: (environment body ++ t)) = ([lineFeed], environment body ++ t) := by
  have hskip : cutAny? bodyBegins ([] ++ lineFeed :: (environment body ++ t)) = _ :=
    cutAny?_append_cons (by decide) (by decide +kernel)
  unfold environment at hskip ⊢
  rw [List.append_assoc bodyBegin, cutAny?_bodyBegins, List.nil_append] at hskip
  unfold splitBody
  rw [List.append_assoc bodyBegin, hskip]
  rfl

theorem Parts.ofText_inDocument (h : ¬ documentEnd <:+: body) :
    Parts.ofText (inDocument body)
      = .ok ⟨documentBegin, [lineFeed], environment body ++ [lineFeed], documentEnd⟩ := by
  have hb : cut? documentBegin (inDocument body) = some ⟨[], documentBegin, _⟩ := cut?_append _ _
  unfold Parts.ofText
  rw [hb, cut?_documentEnd_inDocument h]
  have hdrop : (documentBegin ++ lineFeed :: (environment body ++ [lineFeed])).drop
      ([] ++ documentBegin).length = lineFeed :: (environment body ++ [lineFeed]) :=
    List.drop_left
  simp only [hdrop, splitBody_environment]
  rfl

/-- The white in front of a body and the line feed behind it. -/
theorem dropWhile_isSpace_concat (body : Text) :
    (body ++ [lineFeed]).dropWhile isSpace = []
      ∨ ∃ u, u <:+ body ∧ (body ++ [lineFeed]).dropWhile isSpace = u ++ [lineFeed] := by
  rw [List.dropWhile_append]
  split
  · exact Or.inl rfl
  · exact Or.inr ⟨_, List.dropWhile_suffix _, rfl⟩

/-- The lines of a bare document's body: the white in front of the first line
goes with the mark. -/
theorem bodyLines_environment (h : ∀ m ∈ bodyEnds, ¬ m <:+: body) :
    bodyLines (environment body ++ [lineFeed])
      = lines ((body ++ [lineFeed]).dropWhile isSpace) := by
  have hbegin : eraseMark bodyBegins (environment body ++ [lineFeed])
      = (body ++ [lineFeed]).dropWhile isSpace ++ (bodyEnd ++ [lineFeed]) := by
    unfold eraseMark environment
    rw [List.append_assoc bodyBegin, cutAny?_bodyBegins]
    show (lineFeed :: (body ++ lineFeed :: bodyEnd) ++ [lineFeed]).dropWhile isSpace = _
    rw [show lineFeed :: (body ++ lineFeed :: bodyEnd) ++ [lineFeed]
        = lineFeed :: ((body ++ [lineFeed]) ++ (bodyEnd ++ [lineFeed])) by simp,
      List.dropWhile_cons_of_pos (by decide), List.dropWhile_append]
    split
    · next hempty =>
      rw [List.isEmpty_iff.1 hempty]
      rfl
    · rfl
  -- what is left in front of the mark is blank, or the end of the body
  have hend : ∀ z, (z = [] ∨ ∃ u, u <:+ body ∧ z = u ++ [lineFeed]) →
      eraseMark bodyEnds (z ++ (bodyEnd ++ [lineFeed])) = z := by
    rintro z (rfl | ⟨u, hu, rfl⟩)
    · unfold eraseMark
      rw [List.nil_append, cutAny?_bodyEnds]
      rfl
    · have hskip : cutAny? bodyEnds (u ++ lineFeed :: (bodyEnd ++ [lineFeed])) = _ :=
        cutAny?_append_cons (by decide) fun m hm hmu => h m hm (hmu.trans hu.isInfix)
      rw [cutAny?_bodyEnds] at hskip
      unfold eraseMark
      rw [List.append_assoc, List.singleton_append, hskip]
      simp only [Option.map_some]
      show u ++ [lineFeed] ++ [] = u ++ [lineFeed]
      rw [List.append_nil]
  unfold bodyLines
  rw [hbegin, hend _ (dropWhile_isSpace_concat body)]

/-- **A bare document is its body.** Unless the body holds a mark of an end, its
lines are what is read. -/
theorem Document.ofText_inDocument (d : Dialect)
    (h : ∀ m ∈ documentEnd :: bodyEnds, ¬ m <:+: body) :
    Document.ofText d (inDocument body) =
      let r := readLines d (lines ((body ++ [lineFeed]).dropWhile isSpace))
      .ok
        { preamble := documentBegin
          preserved := [lineFeed]
          blocks := d.finish r.blocks
          footer := documentEnd
          unbalanced := r.unbalanced
          unrecognized := r.unrecognized
          notices := r.notices } := by
  rw [Document.ofText_eq_ok_iff]
  refine ⟨_, Parts.ofText_inDocument (h documentEnd List.mem_cons_self), ?_⟩
  unfold Parts.read
  rw [bodyLines_environment fun m hm => h m (List.mem_cons_of_mem _ hm)]

end FolioGrid
