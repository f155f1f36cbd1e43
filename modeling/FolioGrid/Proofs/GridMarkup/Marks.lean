/-
  FolioGrid.Proofs.GridMarkup.Marks
  ────────────────────────────────
  **WHEN A CONVERTED DOCUMENT IS COMPLETE.**

  A preamble ends with the mark of the document's begin, which need not stand
  on a line of its own.  The preamble of the grid keeps the mark exactly if
  that line is taken over as it is (`TakenOver`):

      a class line      — is written anew, and what follows the class is lost
      a removed package — is dropped with all of its line
      a comment         — is dropped as well

  Main result: `marks_of_convert`.  Three of the four marks always stand in
  their order; the fourth is there if its line is taken over, or if what
  follows the preamble happens to hold all four.
-/
import FolioGrid.Conversion
import FolioGrid.Proofs.Dialect.Glosses
import FolioGrid.Proofs.Document.Parts
import FolioGrid.Proofs.GridMarkup.Order
import Mathlib.Data.List.TakeDrop

namespace FolioGrid

open FolioGrid.Text FolioGrid.Markup

namespace GridMarkup

/-! ## §1. Lines that are taken over. -/

/-- A line of a preamble that the grid's preamble takes over. -/
structure TakenOver (s : Settings) (line : Text) : Prop where
  /-- It names no class of source documents. -/
  noClass : sourceTemplate? line = none
  /-- It loads no package that is dropped. -/
  noPackage : loadsRemoved s line = false
  /-- It is no comment. -/
  noComment : (trim line).head? ≠ some percent

variable {s : Settings} {d : Dialect} {line : Text}

theorem preambleLine?_of_sourceTemplate? {name : Text} (h : sourceTemplate? line = some name) :
    preambleLine? s d line = some (classLine (((templateNames s d).get? name).getD name)) := by
  unfold preambleLine?
  rw [h]

/-- Of a line that names no class, all is taken over or nothing. -/
theorem preambleLine?_eq_some_iff {l : Text} (h : sourceTemplate? line = none) :
    preambleLine? s d line = some l ↔ TakenOver s line ∧ l = line := by
  unfold preambleLine?
  rw [h]
  show (if loadsRemoved s line ∨ (trim line).head? = some percent then none else some line)
    = some l ↔ _
  constructor
  · intro hl
    split at hl
    · cases hl
    · next hno =>
      rw [not_or, Bool.not_eq_true] at hno
      exact ⟨⟨h, hno.1, hno.2⟩, (Option.some.inj hl).symm⟩
  · rintro ⟨hline, rfl⟩
    rw [if_neg]
    rw [not_or, Bool.not_eq_true]
    exact ⟨hline.noPackage, hline.noComment⟩

/-- The template's name stands in front of the end of its line. -/
theorem infix_of_sourceTemplate? {name : Text} (h : sourceTemplate? line = some name) :
    name <:+: line.dropLast := by
  unfold sourceTemplate? at h
  obtain ⟨rest, hrest, h⟩ := Option.bind_eq_some_iff.1 h
  rw [after?_eq_some_iff] at hrest
  rw [List.span_eq_takeWhile_dropWhile] at h
  dsimp only at h
  split at h
  · next hname =>
    cases h
    have hline : line = (classOpening ++ rest.takeWhile (· ≠ closeBracket))
        ++ rest.dropWhile (· ≠ closeBracket) := by
      rw [hrest, List.append_assoc, List.takeWhile_append_dropWhile]
    rw [hline, List.dropLast_append_of_ne_nil hname.2.1]
    exact ⟨classOpening, _, rfl⟩
  · cases h

/-- No class line of the grid holds a mark, unless its template's name does. -/
theorem not_infix_classLine {name : Text} (h : ¬ documentBegin <:+: name) :
    ¬ documentBegin <:+: classLine name := by
  rw [show classLine name = command "documentclass"
      ++ openBracket :: (name ++ closeBracket :: group gridClass) by simp [classLine, option],
    infix_append_cons_iff (by decide), infix_append_cons_iff (by decide)]
  simp only [not_or]
  exact ⟨by decide +kernel, h, by decide +kernel⟩

/-! ## §2. The mark in a preamble. -/

/-- Only a blank line can be dropped as one too many. -/
theorem mem_collapseBlank_iff (h : trim line ≠ []) (afterBlank : Bool) (ls : List Text) :
    line ∈ collapseBlank afterBlank ls ↔ line ∈ ls := by
  induction ls generalizing afterBlank with
  | nil => rfl
  | cons l ls ih =>
    unfold collapseBlank
    by_cases hl : trim l = []
    · have hne : line ≠ l := by
        rintro rfl
        exact h hl
      rw [if_pos hl]
      cases afterBlank with
      | true =>
        rw [if_pos rfl, ih, List.mem_cons]
        exact (or_iff_right hne).symm
      | false => rw [if_neg (by decide), List.mem_cons, ih, List.mem_cons]
    · rw [if_neg hl, List.mem_cons, ih, List.mem_cons]

theorem trim_ne_nil_of_mark (h : documentBegin <:+: line) : trim line ≠ [] :=
  trim_ne_nil_of_mem (h.mem (by decide : backslash ∈ documentBegin)) (by decide) (by decide)

theorem documentBegin_infix_preamble_iff_exists (t : Text) :
    documentBegin <:+: preamble s d t
      ↔ ∃ line ∈ lines t, ∃ l, preambleLine? s d line = some l ∧ documentBegin <:+: l := by
  unfold preamble
  rw [infix_joinLines_iff (by decide) (by decide)]
  constructor
  · rintro ⟨l, hl, hmark⟩
    rw [mem_collapseBlank_iff (trim_ne_nil_of_mark hmark)] at hl
    obtain ⟨line, hline, hread⟩ := List.mem_filterMap.1 hl
    exact ⟨line, hline, l, hread, hmark⟩
  · rintro ⟨line, hline, l, hread, hmark⟩
    refine ⟨l, ?_, hmark⟩
    rw [mem_collapseBlank_iff (trim_ne_nil_of_mark hmark)]
    exact List.mem_filterMap.2 ⟨line, hline, hread⟩

/-- A line whose mark, if it has one, stands at its end gives the mark on
exactly if it is taken over. -/
theorem exists_preambleLine?_iff
    (htemplates : ∀ key name, (templateNames s d).get? key = some name → ¬ documentBegin <:+: name)
    (hfirst : ¬ documentBegin <:+: line.dropLast) :
    (∃ l, preambleLine? s d line = some l ∧ documentBegin <:+: l)
      ↔ TakenOver s line ∧ documentBegin <:+: line := by
  cases hclass : sourceTemplate? line with
  | none =>
    simp only [preambleLine?_eq_some_iff hclass]
    constructor
    · rintro ⟨l, ⟨hline, rfl⟩, hmark⟩
      exact ⟨hline, hmark⟩
    · rintro ⟨hline, hmark⟩
      exact ⟨line, ⟨hline, rfl⟩, hmark⟩
  | some name =>
    -- a class line is written anew, from a name that holds no mark
    have hname : ¬ documentBegin <:+: ((templateNames s d).get? name).getD name := by
      cases hget : (templateNames s d).get? name with
      | none => exact fun h => hfirst (h.trans (infix_of_sourceTemplate? hclass))
      | some target => exact htemplates name target hget
    rw [preambleLine?_of_sourceTemplate? hclass]
    constructor
    · rintro ⟨l, hl, hmark⟩
      cases hl
      exact absurd hmark (not_infix_classLine hname)
    · rintro ⟨hline, -⟩
      rw [hline.noClass] at hclass
      cases hclass

/-- The line on which a preamble ends. -/
def lastLine (t : Text) : Text := (lines t).getLastD []

/-- **The mark in a preamble.** It is kept exactly if the line that ends the
preamble is taken over. -/
theorem documentBegin_infix_preamble_iff {content : Text} {parts : Parts}
    (htemplates : ∀ key name, (templateNames s d).get? key = some name → ¬ documentBegin <:+: name)
    (h : Parts.ofText content = .ok parts) :
    documentBegin <:+: preamble s d parts.preamble ↔ TakenOver s (lastLine parts.preamble) := by
  obtain ⟨front, hpreamble, hfirst⟩ := Parts.preamble_of_ofText h
  obtain ⟨above, last, hfront, happend⟩ := exists_last_line front
  have hlines := happend documentBegin (by decide)
  -- the mark is cut short, so none of the lines holds it
  have hshort : ∀ l ∈ above ++ [last ++ documentBegin.dropLast], ¬ documentBegin <:+: l := by
    intro l hl hmark
    refine hfirst ?_
    rw [← joinLines_lines (front ++ documentBegin.dropLast), happend _ (by decide),
      infix_joinLines_iff (by decide) (by decide)]
    exact ⟨l, hl, hmark⟩
  rw [documentBegin_infix_preamble_iff_exists, hpreamble, lastLine, hlines, List.getLastD_concat]
  have hlast : ¬ documentBegin <:+: (last ++ documentBegin).dropLast := by
    rw [List.dropLast_append_of_ne_nil (by decide)]
    exact hshort _ (List.mem_append_right _ (List.mem_singleton_self _))
  constructor
  · rintro ⟨line, hline, hread⟩
    rcases List.mem_append.1 hline with hline | hline
    · have hno := hshort line (List.mem_append_left _ hline)
      have hdrop : ¬ documentBegin <:+: line.dropLast :=
        fun hmark => hno (hmark.trans (List.dropLast_prefix line).isInfix)
      exact absurd ((exists_preambleLine?_iff htemplates hdrop).1 hread).2 hno
    · -- the line that ends with the mark
      cases List.mem_singleton.1 hline
      exact ((exists_preambleLine?_iff htemplates hlast).1 hread).1
  · intro htaken
    refine ⟨last ++ documentBegin, List.mem_append_right _ (List.mem_singleton_self _), ?_⟩
    exact (exists_preambleLine?_iff htemplates hlast).2
      ⟨htaken, (List.suffix_append last documentBegin).isInfix⟩

/-- No template that a conversion knows by default has a mark in its name. -/
theorem not_infix_of_templateNames (hd : d.BuiltIn) {key name : Text}
    (h : (templateNames .standard d).get? key = some name) : ¬ documentBegin <:+: name := by
  obtain ⟨entry, hentry, rfl⟩ := Option.map_eq_some_iff.1 h
  have hmem := List.mem_of_find?_eq_some hentry
  -- the tables are fixed, and none of their names holds a backslash
  refine not_infix_of_not_mem ?_
  cases hd with
  | plain =>
    have hall : ∀ e ∈ (templateNames .standard .plain).entries, backslash ∉ e.2 := by
      decide +kernel
    exact hall entry hmem
  | catalogue =>
    have hall : ∀ e ∈ (templateNames .standard Catalogue.dialect).entries, backslash ∉ e.2 := by
      decide +kernel
    exact hall entry hmem

end GridMarkup

/-! ## §3. Conversions. -/

open GridMarkup

theorem output_of_convert {s : Settings} {d : Dialect} {content : Text} {r : Conversion}
    (h : (convert s d content).value = .ok r) :
    ∃ parts columns, Parts.ofText content = .ok parts
      ∧ layout s (parts.read d).blocks = .ok columns
      ∧ r.output = document s d parts.preamble parts.preserved columns parts.footer := by
  obtain ⟨doc, columns, hdoc, hcolumns, houtput, -⟩ := exists_of_convert h
  obtain ⟨parts, hparts, rfl⟩ := Document.ofText_eq_ok_iff.1 hdoc
  exact ⟨parts, columns, hparts, hcolumns, houtput⟩

/-- **When a converted document is complete.** What a conversion without settings
writes behind the preamble opens and closes an environment of columns and ends
the document.  The mark at which the document begins is kept in the preamble
exactly if its line is taken over; and all four marks stand in their order
exactly then, or if they do already behind the preamble. -/
theorem marks_of_convert {name content : Text} {d : Dialect} {r : Conversion}
    (hd : Dialect.named name = .ok d) (h : (convert .standard d content).value = .ok r) :
    ∃ parts columns, Parts.ofText content = .ok parts
      ∧ r.output = preamble .standard d parts.preamble
          ++ lineFeed :: behindPreamble parts.preserved columns parts.footer
      ∧ InOrder [contentBegin, contentEnd, documentEnd]
          (behindPreamble parts.preserved columns parts.footer)
      ∧ (documentBegin <:+: preamble .standard d parts.preamble
          ↔ TakenOver .standard (lastLine parts.preamble))
      ∧ (InOrder [documentBegin, contentBegin, contentEnd, documentEnd] r.output
          ↔ TakenOver .standard (lastLine parts.preamble)
            ∨ InOrder [documentBegin, contentBegin, contentEnd, documentEnd]
                (behindPreamble parts.preserved columns parts.footer)) := by
  obtain ⟨parts, columns, hparts, -, houtput⟩ := output_of_convert h
  rw [document_eq] at houtput
  have hbehind := inOrder_behindPreamble parts.preserved columns (Parts.footer_of_ofText hparts)
  have hmark := documentBegin_infix_preamble_iff
    (fun _ _ => not_infix_of_templateNames (Dialect.builtIn_of_named hd)) hparts
  refine ⟨parts, columns, hparts, houtput, hbehind, hmark, ?_⟩
  rw [houtput, ← hmark]
  exact inOrder_cons_append_cons_iff (by decide) hbehind

/-- The class line of a source document. -/
def sourceClassLine : Text :=
  command "documentclass" ++ option (utf8 "四库全书") ++ group (utf8 "guji")

/-- A book of one word, whose document begins behind a given text. -/
def bookBehind (front : Text) : Text :=
  front ++ documentBegin ++ utf8 "\n甲\n" ++ documentEnd ++ [lineFeed]

/-- A book of one word on the grid. -/
def bookOnGrid (preamble : Text) : Conversion where
  output := preamble ++ utf8 "\n\n" ++ contentBegin ++ utf8 "\n甲\n\n" ++ contentEnd ++ [lineFeed]
    ++ documentEnd ++ [lineFeed]
  blocks := 1
  columns := 1
  counts := [(.text, 1)]
  warnings := []

/-- On a line of its own, the mark is kept. -/
theorem inOrder_of_own_line :
    ∃ r, (convert .standard .plain (bookBehind (sourceClassLine ++ [lineFeed]))).value = .ok r
      ∧ InOrder [documentBegin, contentBegin, contentEnd, documentEnd] r.output := by
  have hconvert : (convert .standard .plain (bookBehind (sourceClassLine ++ [lineFeed]))).value
      = .ok (bookOnGrid (classLine (utf8 "default") ++ lineFeed :: documentBegin)) := by
    decide +kernel
  have hparts : Parts.ofText (bookBehind (sourceClassLine ++ [lineFeed]))
      = .ok ⟨sourceClassLine ++ lineFeed :: documentBegin, [], utf8 "\n甲\n",
          documentEnd ++ [lineFeed]⟩ := by
    decide +kernel
  have hline : TakenOver .standard (lastLine (sourceClassLine ++ lineFeed :: documentBegin)) :=
    ⟨by decide +kernel, by decide +kernel, by decide +kernel⟩
  obtain ⟨parts, columns, hread, -, -, -, hmarks⟩ :=
    marks_of_convert (rfl : Dialect.named [] = .ok .plain) hconvert
  rw [hparts] at hread
  cases hread
  exact ⟨_, hconvert, hmarks.2 (Or.inl hline)⟩

/-- On the class line, the mark is lost. -/
theorem not_inOrder_of_class_line :
    ∃ r, (convert .standard .plain (bookBehind sourceClassLine)).value = .ok r
      ∧ ¬ InOrder [documentBegin, contentBegin, contentEnd, documentEnd] r.output := by
  have hnone : ¬ documentBegin <:+: (bookOnGrid (classLine (utf8 "default"))).output := by
    decide +kernel
  exact ⟨bookOnGrid (classLine (utf8 "default")), by decide +kernel, fun h => hnone h.infix_head⟩

end FolioGrid
