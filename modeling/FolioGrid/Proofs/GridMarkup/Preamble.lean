/-
  FolioGrid.Proofs.GridMarkup.Preamble
  ────────────────────────────────
  **A PREAMBLE IS TRANSLATED ONCE.**

  The preamble of the grid is taken over line by line, so what it becomes when it
  is taken over again follows from its lines:

      takenOver_of_preambleLine?    — a line that was kept is kept as it is
      collapseBlank_eq_destutter    — leaving one blank line of each run is the
                                      library's `destutter`, which is idempotent

  Main result: `preamble_preamble`.  It needs that no template's name can end the
  class line it stands on, by a bracket or by a line feed.
-/
import FolioGrid.Proofs.GridMarkup.Marks
import Mathlib.Data.List.Destutter

namespace FolioGrid

open FolioGrid.Text FolioGrid.Markup

namespace GridMarkup

variable {s : Settings} {d : Dialect} {line l : Text}

/-! ## §1. Runs of blank lines. -/

/-- That not both of two lines are blank. -/
def Apart (a b : Text) : Prop := trim a = [] → trim b ≠ []

instance : DecidableRel Apart := fun a b => inferInstanceAs (Decidable (trim a = [] → trim b ≠ []))

/-- A kept line goes in front of what is kept behind it. -/
theorem destutter'_apart (a : Text) (ls : List Text) :
    ls.destutter' Apart a = a :: collapseBlank (trim a = []) ls := by
  induction ls generalizing a with
  | nil => rfl
  | cons l ls ih =>
    by_cases hl : trim l = []
    · by_cases ha : trim a = []
      · have hdrop : ¬ Apart a l := fun h => h ha hl
        rw [List.destutter'_cons_neg ls hdrop, ih]
        simp [collapseBlank, ha, hl]
      · have hkeep : Apart a l := fun h => absurd h ha
        rw [List.destutter'_cons_pos ls hkeep, ih]
        simp [collapseBlank, ha, hl]
    · have hkeep : Apart a l := fun _ => hl
      rw [List.destutter'_cons_pos ls hkeep, ih]
      simp [collapseBlank, hl]

/-- Of blank lines in a row the first is left. -/
theorem collapseBlank_eq_destutter (ls : List Text) :
    collapseBlank false ls = ls.destutter Apart := by
  cases ls with
  | nil => rfl
  | cons l ls =>
    rw [List.destutter_cons', destutter'_apart]
    by_cases hl : trim l = []
    · simp [collapseBlank, hl]
    · simp [collapseBlank, hl]

/-! ## §2. Kept lines. -/

/-- A class line of the grid is no class line of a source document: behind its
template stands another class. -/
theorem sourceTemplate?_classLine {name : Text} (h : closeBracket ∉ name) :
    sourceTemplate? (classLine name) = none := by
  have hline : classLine name = classOpening ++ (name ++ closeBracket :: group gridClass) := by
    simp [classLine, classOpening, option]
  have hname : ∀ b ∈ name, decide (b ≠ closeBracket) = true := by
    intro b hb
    simpa using fun hbracket : b = closeBracket => h (hbracket ▸ hb)
  have htail : (name ++ closeBracket :: group gridClass).dropWhile (· ≠ closeBracket)
      = closeBracket :: group gridClass := by
    rw [List.dropWhile_append_of_pos hname]
    rfl
  unfold sourceTemplate?
  rw [hline, after?_append, Option.bind_eq_bind, Option.bind_some, List.span_eq_takeWhile_dropWhile]
  dsimp only
  rw [htail, if_neg]
  rintro ⟨-, -, hclass⟩
  revert hclass
  decide +kernel

/-- A class line has no blank at its ends. -/
theorem trim_classLine (name : Text) : trim (classLine name) = classLine name := by
  have hlast : (classLine name).getLast? = some closeBrace := by
    rw [classLine, group, ← List.append_assoc, List.getLast?_concat]
  exact (trimmed_of_ends (a := backslash) rfl hlast (by decide) (by decide)).both

theorem takenOver_classLine {name : Text} (h : closeBracket ∉ name) :
    TakenOver s (classLine name) where
  noClass := sourceTemplate?_classLine h
  noPackage := by
    unfold loadsRemoved
    rw [trim_classLine, List.any_eq_false]
    intro p _ hload
    -- the two commands differ in their first letter
    have hhead := (List.cons_prefix_cons.1 (List.isPrefixOf_iff_prefix.1 hload)).2
    exact absurd (List.cons_prefix_cons.1 hhead).1 (by decide)
  noComment := by
    rw [trim_classLine]
    show some backslash ≠ some percent
    decide

/-- The template that a class line names cannot end the line. -/
theorem not_mem_of_sourceTemplate? {name : Text} (h : sourceTemplate? line = some name) :
    closeBracket ∉ name := by
  unfold sourceTemplate? at h
  obtain ⟨rest, -, h⟩ := Option.bind_eq_some_iff.1 h
  rw [List.span_eq_takeWhile_dropWhile] at h
  dsimp only at h
  split at h
  · cases h
    intro hmem
    simpa using List.mem_takeWhile_imp hmem
  · cases h

/-- What a line of a preamble becomes if it is kept: a class line names the target's
template and the class of the grid, any other line is as it was. -/
def gridLine (s : Settings) (d : Dialect) (line : Text) : Text :=
  (sourceTemplate? line).elim line fun name => classLine (((templateNames s d).get? name).getD name)

theorem eq_gridLine_of_preambleLine? (h : preambleLine? s d line = some l) :
    l = gridLine s d line := by
  unfold gridLine
  cases hclass : sourceTemplate? line with
  | none => exact ((preambleLine?_eq_some_iff hclass).1 h).2
  | some name =>
    rw [preambleLine?_of_sourceTemplate? hclass] at h
    exact (Option.some.inj h).symm

/-- **A line that was kept is kept as it is.** -/
theorem takenOver_of_preambleLine?
    (hnames : ∀ key name, (templateNames s d).get? key = some name → closeBracket ∉ name)
    (h : preambleLine? s d line = some l) : TakenOver s l := by
  cases hclass : sourceTemplate? line with
  | none =>
    obtain ⟨htaken, rfl⟩ := (preambleLine?_eq_some_iff hclass).1 h
    exact htaken
  | some name =>
    rw [preambleLine?_of_sourceTemplate? hclass] at h
    obtain rfl := Option.some.inj h
    refine takenOver_classLine ?_
    cases hget : (templateNames s d).get? name with
    | none => exact not_mem_of_sourceTemplate? hclass
    | some target => exact hnames name target hget

/-- A kept line is one line, if the target's names are. -/
theorem lineFeed_not_mem_of_preambleLine?
    (hnames : ∀ key name, (templateNames s d).get? key = some name → lineFeed ∉ name)
    (hline : lineFeed ∉ line) (h : preambleLine? s d line = some l) : lineFeed ∉ l := by
  cases hclass : sourceTemplate? line with
  | none =>
    obtain ⟨-, rfl⟩ := (preambleLine?_eq_some_iff hclass).1 h
    exact hline
  | some name =>
    rw [preambleLine?_of_sourceTemplate? hclass] at h
    obtain rfl := Option.some.inj h
    have hname : lineFeed ∉ ((templateNames s d).get? name).getD name := by
      cases hget : (templateNames s d).get? name with
      | none =>
        have hin := (infix_of_sourceTemplate? hclass).trans (List.dropLast_prefix line).isInfix
        exact fun hmem => hline (hin.mem hmem)
      | some target => exact hnames name target hget
    simp only [classLine, option, List.mem_append, not_or, List.mem_cons]
    exact ⟨⟨by decide, ⟨by decide, hname⟩, by decide⟩, by decide⟩

/-! ## §3. The lines of a preamble. -/

/-- The lines that are left of a preamble. -/
def keptLines (s : Settings) (d : Dialect) (t : Text) : List Text :=
  collapseBlank false ((lines t).filterMap (preambleLine? s d))

/-- Each of them was kept. -/
theorem exists_preambleLine?_of_mem_keptLines {t : Text} (h : l ∈ keptLines s d t) :
    ∃ line ∈ lines t, preambleLine? s d line = some l := by
  unfold keptLines at h
  rw [collapseBlank_eq_destutter] at h
  exact List.mem_filterMap.1 ((List.destutter_sublist Apart _).subset h)

theorem lineFeed_not_mem_keptLines {t : Text}
    (hnames : ∀ key name, (templateNames s d).get? key = some name → lineFeed ∉ name)
    (h : l ∈ keptLines s d t) : lineFeed ∉ l := by
  obtain ⟨line, hline, hread⟩ := exists_preambleLine?_of_mem_keptLines h
  exact lineFeed_not_mem_of_preambleLine? hnames (lineFeed_not_mem_of_mem_lines hline) hread

/-- They are lines of the preamble in their order, the class lines written anew. -/
theorem exists_keptLines_eq_map (t : Text) :
    ∃ kept : List Text, kept.Sublist (lines t) ∧ keptLines s d t = kept.map (gridLine s d) := by
  have hread : ∀ ls : List Text, ls.filterMap (preambleLine? s d)
      = (ls.filter fun line => (preambleLine? s d line).isSome).map (gridLine s d) := by
    intro ls
    induction ls with
    | nil => rfl
    | cons line ls ih =>
      cases hline : preambleLine? s d line with
      | none => simp [hline, ih]
      | some l => simp [hline, ih, eq_gridLine_of_preambleLine? hline]
  unfold keptLines
  rw [collapseBlank_eq_destutter, hread]
  obtain ⟨kept, hkept, heq⟩ := List.sublist_map_iff.1 (List.destutter_sublist Apart
    (((lines t).filter fun line => (preambleLine? s d line).isSome).map (gridLine s d)))
  exact ⟨kept, hkept.trans List.filter_sublist, heq⟩

/-- All of them are kept again. -/
theorem collapseBlank_filterMap_keptLines {t : Text}
    (hnames : ∀ key name, (templateNames s d).get? key = some name → closeBracket ∉ name) :
    collapseBlank false ((keptLines s d t).filterMap (preambleLine? s d)) = keptLines s d t := by
  have hkept : (keptLines s d t).filterMap (preambleLine? s d) = keptLines s d t := by
    have hline : ∀ l ∈ keptLines s d t, preambleLine? s d l = some l := by
      intro l hl
      obtain ⟨line, -, hread⟩ := exists_preambleLine?_of_mem_keptLines hl
      have htaken : TakenOver s l := takenOver_of_preambleLine? hnames hread
      exact (preambleLine?_eq_some_iff htaken.noClass).2 ⟨htaken, rfl⟩
    rw [List.filterMap_congr hline, List.filterMap_some]
  rw [hkept]
  unfold keptLines
  rw [collapseBlank_eq_destutter, collapseBlank_eq_destutter, List.destutter_idem]

/-- Nothing comes of nothing. -/
theorem preamble_nil : preamble s d [] = [] := by
  have hload : loadsRemoved s [] = false := by
    unfold loadsRemoved
    rw [List.any_eq_false]
    intro p _ hload
    exact absurd (List.prefix_nil.1 (List.isPrefixOf_iff_prefix.1 hload)) (by simp [command])
  have hread : preambleLine? s d [] = some [] :=
    (preambleLine?_eq_some_iff rfl).2 ⟨⟨rfl, hload, by decide⟩, rfl⟩
  have hlines : (lines []).filterMap (preambleLine? s d) = [[]] := by
    show [[]].filterMap (preambleLine? s d) = [[]]
    rw [List.filterMap_cons_some hread, List.filterMap_nil]
  unfold preamble
  rw [hlines]
  rfl

/-! ## §4. A preamble twice. -/

/-- The lines of a text, of which the empty text has none. -/
def ownLines (t : Text) : List Text := if t = [] then [] else lines t

/-- **A preamble is translated once.** Taking over what was taken over changes nothing.
No two blank lines are left in a row, no comment and no package that is dropped; and the
lines that are left are lines of the preamble, in their order and all as they were but
for the class lines. -/
theorem preamble_preamble
    (hnames : ∀ key name, (templateNames s d).get? key = some name →
      closeBracket ∉ name ∧ lineFeed ∉ name) (t : Text) :
    preamble s d (preamble s d t) = preamble s d t
      ∧ (ownLines (preamble s d t)).IsChain (fun a b => trim a = [] → trim b ≠ [])
      ∧ (∀ l ∈ ownLines (preamble s d t), (trim l).head? ≠ some percent
          ∧ ∀ p ∈ s.removedPackages, ¬ command "usepackage" ++ group p <+: trim l)
      ∧ ∃ kept : List Text, kept.Sublist (ownLines t)
          ∧ ownLines (preamble s d t) = kept.map (gridLine s d) := by
  have hlines : keptLines s d t ≠ [] → lines (preamble s d t) = keptLines s d t :=
    fun hne => lines_joinLines hne fun l hl =>
      lineFeed_not_mem_keptLines (fun key name hget => (hnames key name hget).2) hl
  by_cases hempty : preamble s d t = []
  · -- nothing is left
    rw [hempty]
    refine ⟨preamble_nil, List.IsChain.nil, ?_, [], List.nil_sublist _, rfl⟩
    intro l hl
    cases hl
  · have hne : keptLines s d t ≠ [] := by
      intro hnil
      refine hempty ?_
      show joinLines (keptLines s d t) = []
      rw [hnil]
      rfl
    have ht : t ≠ [] := by
      rintro rfl
      exact hempty preamble_nil
    rw [ownLines, if_neg hempty, ownLines, if_neg ht, hlines hne]
    refine ⟨?_, ?_, ?_, exists_keptLines_eq_map t⟩
    · show joinLines (collapseBlank false ((lines (preamble s d t)).filterMap (preambleLine? s d)))
        = joinLines (keptLines s d t)
      rw [hlines hne,
        collapseBlank_filterMap_keptLines fun key name hget => (hnames key name hget).1]
    · unfold keptLines
      rw [collapseBlank_eq_destutter]
      exact List.isChain_destutter Apart _
    · intro l hl
      obtain ⟨line, -, hread⟩ := exists_preambleLine?_of_mem_keptLines hl
      have htaken : TakenOver s l :=
        takenOver_of_preambleLine? (fun key name hget => (hnames key name hget).1) hread
      refine ⟨htaken.noComment, fun p hp hload => ?_⟩
      have hnone := List.any_eq_false.1 htaken.noPackage p hp
      exact hnone (List.isPrefixOf_iff_prefix.2 hload)

/-- A preamble with a class line, a comment and a package between blank lines. -/
def frontMatter : Text :=
  sourceClassLine ++ utf8 "\n\n% 圖\n\u3000\n" ++ command "usepackage" ++ group (utf8 "tikz")
    ++ utf8 " % 畫\n\t\n" ++ documentBegin

/-- Of the blank lines one is left, the one in front. -/
theorem preamble_preamble_frontMatter :
    preamble .standard Catalogue.dialect frontMatter
        = classLine (utf8 "default") ++ utf8 "\n\n" ++ documentBegin
      ∧ preamble .standard Catalogue.dialect
          (classLine (utf8 "default") ++ utf8 "\n\n" ++ documentBegin)
        = classLine (utf8 "default") ++ utf8 "\n\n" ++ documentBegin := by
  have hnames : ∀ key name, (templateNames .standard Catalogue.dialect).get? key = some name →
      closeBracket ∉ name ∧ lineFeed ∉ name := by
    intro key name hget
    obtain ⟨entry, hentry, rfl⟩ := Option.map_eq_some_iff.1 hget
    have hall : ∀ e ∈ (templateNames .standard Catalogue.dialect).entries,
        closeBracket ∉ e.2 ∧ lineFeed ∉ e.2 := by
      decide +kernel
    exact hall entry (List.mem_of_find?_eq_some hentry)
  have honce : preamble .standard Catalogue.dialect frontMatter
      = classLine (utf8 "default") ++ utf8 "\n\n" ++ documentBegin := by
    decide +kernel
  refine ⟨honce, ?_⟩
  have htwice := (preamble_preamble hnames frontMatter).1
  rwa [honce] at htwice

end GridMarkup

end FolioGrid
