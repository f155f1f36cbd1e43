/-
  FolioGrid.Proofs.Reading.Readers
  ────────────────────────────────
  **WHAT A LINE IS READ AS, AND WHAT ITS READER SEES.**

  In the dialects that a conversion can be asked for, a line has one of few
  readers (`Line.Reader`, `Line.reader_readTrimmed`).  Each of them sees of a line
  only what stands between the blanks at its ends:

      collect_congr            — of the lines of an argument
      Paragraph.enclosed_congr — of the lines of a paragraph, also where its end
                                 is marked inside one
      readLines_congr          — of all lines of a body
-/
import FolioGrid.Proofs.Dialect.Glosses
import FolioGrid.Proofs.Text.Blank

namespace FolioGrid

open FolioGrid.Text FolioGrid.Markup

/-! ## §1. Readers. -/

/-- What a line can be read as, given the lines that it starts: only two commands
and the paragraph look at more than the line. -/
inductive Line.Reader : (List Text → Reading) → Prop where
  /-- The line is read by itself. -/
  | alone {r : Reading} (h : r.lines ≤ 1) : Reader fun _ => r
  /-- A seal. -/
  | stamp : Reader Stamp.read
  /-- A paragraph, of which the line opens with this. -/
  | paragraph (afterOpening : Text) : Reader fun ls => Paragraph.read afterOpening (ls.drop 1)
  /-- A gloss or a note. -/
  | gloss {name : String} (indent : Int) (unwrap : Bool) (h : lineFeed ∉ command name) :
      Reader (Catalogue.readGloss (command name) indent unwrap)
  /-- With a report in front. -/
  | after {read : List Text → Reading} (notices : List Notice) (h : Reader read) :
      Reader fun ls => (read ls).after notices

namespace Line

variable {d : Dialect}

/-- A command is known or not, whatever lines it starts; one without a name is
not. -/
theorem known_or_unknown (hd : d.BuiltIn) (name line : Text) :
    (∀ ls, (if name = [] then none else d.readCommand name line ls) = none)
      ∨ ∃ read, Reader read
        ∧ ∀ ls, (if name = [] then none else d.readCommand name line ls) = some (read ls) := by
  by_cases hname : name = []
  · exact .inl fun _ => if_pos hname
  simp only [if_neg hname]
  cases hd with
  | plain => exact .inl fun _ => rfl
  | catalogue =>
    by_cases hgloss : name = utf8 "注"
    · exact .inr ⟨_, .gloss _ _ (by decide), fun _ => if_pos hgloss⟩
    by_cases hnote : name = utf8 "按"
    · exact .inr ⟨_, .gloss _ _ (by decide), fun _ => (if_neg hgloss).trans (if_pos hnote)⟩
    · exact .inl fun _ => (if_neg hgloss).trans (if_neg hnote)

theorem reader_readCommand (hd : d.BuiltIn) (line : Text) : Reader (readCommand d line) := by
  unfold readCommand
  rcases known_or_unknown hd (commandName line) line with hunknown | ⟨read, hread, hknown⟩
  · simp only [hunknown]
    cases styledText? line with
    | some t => exact .alone (Nat.le_refl 1)
    | none => exact .alone (Nat.le_refl 1)
  · simp only [hknown]
    exact hread

/-- **What a line is read as**, one case for each thing that it is tried as. -/
theorem reader_readTrimmed (hd : d.BuiltIn) (line : Text) : Reader (readTrimmed d line) := by
  unfold readTrimmed
  by_cases hline : line = []
  · simp only [if_pos hline]
    exact .alone (Nat.zero_le 1)
  simp only [if_neg hline]
  cases chapterTitle? line with
  | some title => exact .alone (Nat.le_refl 1)
  | none =>
    by_cases hpage : line = newPageCommand
    · simp only [if_pos hpage]
      exact .alone (Nat.le_refl 1)
    by_cases hstamp : Stamp.isStamp line = true
    · simp only [if_neg hpage, if_pos hstamp]
      exact .stamp
    simp only [if_neg hpage, if_neg hstamp]
    cases after? Paragraph.opening line with
    | some afterOpening => exact .paragraph afterOpening
    | none =>
      obtain ⟨entry, notices⟩ := Entry.ofLine? line
      cases entry with
      | some b => exact .alone (Nat.le_refl 1)
      | none =>
        by_cases hcommand : line.head? = some backslash
        · simp only [if_pos hcommand]
          exact .after notices (reader_readCommand hd line)
        · simp only [if_neg hcommand]
          exact .alone (Nat.le_refl 1)

end Line

/-! ## §2. Blanks at the ends of lines. -/

section

variable {l l' : Text} {ls ls' : List Text}

/-- Lines that are the same once trimmed are so one by one. -/
theorem map_trim_eq_cons (h : (l :: ls).map trim = ls'.map trim) :
    ∃ m ms, ls' = m :: ms ∧ trim l = trim m ∧ ls.map trim = ms.map trim := by
  obtain ⟨m, ms, rfl, hm, hms⟩ := List.map_eq_cons_iff.1 h.symm
  exact ⟨m, ms, rfl, hm.symm, hms.symm⟩

/-- Of the lines below, the scan sees only what is left once they are trimmed. -/
theorem collect_go_congr {c : Text} (h : ls.map trim = ls'.map trim) (t : Text) (taken : Nat) :
    collect.go c t taken ls = collect.go c t taken ls' := by
  induction ls generalizing ls' t taken with
  | nil => rw [List.map_eq_nil_iff.1 h.symm]
  | cons l ls ih =>
    obtain ⟨m, ms, rfl, hm, hms⟩ := map_trim_eq_cons h
    unfold collect.go
    split
    · rfl
    · dsimp only
      rw [hm]
      exact ih hms _ _

/-- An argument is collected from trimmed lines. -/
theorem collect_congr (h : ls.map trim = ls'.map trim) (c : Text) :
    collect c ls = collect c ls' := by
  cases ls with
  | nil => rw [List.map_eq_nil_iff.1 h.symm]
  | cons l ls =>
    obtain ⟨m, ms, rfl, hm, hms⟩ := map_trim_eq_cons h
    show collect.go c (trim l) 1 ls = collect.go c (trim m) 1 ms
    rw [hm]
    exact collect_go_congr hms _ _

/-- A seal depends on its lines only through what has been collected. -/
theorem Stamp.read_congr {ls ls' : List Text}
    (h : collect stampCommand ls = collect stampCommand ls') : read ls = read ls' := by
  unfold read
  rw [h]

/-- So does a gloss. -/
theorem Catalogue.readGloss_congr {command : Text} {ls ls' : List Text} (indent : Int)
    (unwrap : Bool) (h : collect command ls = collect command ls') :
    readGloss command indent unwrap ls = readGloss command indent unwrap ls' := by
  unfold readGloss
  rw [h]

/-- The mark of a paragraph's end is found in a line whatever blanks stand around the
line, and they are all that can change in front of it. -/
theorem Paragraph.cut?_closing_trim (l : Text) :
    ∃ u v, Blanks wideSpace u
      ∧ cut? closing l
        = (cut? closing (trim l)).map fun c => ⟨u ++ c.before, c.found, c.after ++ v⟩ := by
  obtain ⟨u, v, hu, hv, hl⟩ := exists_blanks_trim l
  have hclosing : ∀ b ∈ closing, isSpace b = false ∧ b ∉ wideSpace := by decide +kernel
  refine ⟨u, v, hu, ?_⟩
  conv => lhs; rw [← hl]
  exact cut?_append_append (by decide) (hu.not_mem hclosing) (hv.not_mem hclosing)

/-- The mark of the end closes a paragraph on the line on which it stands. -/
theorem Paragraph.enclosed_cons_of_some {l : Text} {c : Cut} (h : cut? closing l = some c)
    (ls : List Text) : enclosed (l :: ls) = ⟨[c.before], 1, true⟩ := by
  rw [enclosed]
  simp only [h]

theorem Paragraph.enclosed_cons_of_none {l : Text} (h : cut? closing l = none) (ls : List Text) :
    enclosed (l :: ls)
      = ⟨l :: (enclosed ls).inner, (enclosed ls).taken + 1, (enclosed ls).closed⟩ := by
  rw [enclosed]
  simp only [h]

/-- What matters of the lines that a paragraph encloses is what they add to it. -/
theorem Paragraph.enclosed_congr (h : ls.map trim = ls'.map trim) :
    (enclosed ls).inner.flatMap lineText = (enclosed ls').inner.flatMap lineText
      ∧ (enclosed ls).taken = (enclosed ls').taken
      ∧ (enclosed ls).closed = (enclosed ls').closed := by
  have hlineText : ∀ {l m : Text}, trim l = trim m → lineText l = lineText m := by
    intro l m hlm
    unfold lineText
    rw [hlm]
  induction ls generalizing ls' with
  | nil => rw [List.map_eq_nil_iff.1 h.symm]; exact ⟨rfl, rfl, rfl⟩
  | cons l ls ih =>
    obtain ⟨m, ms, rfl, hm, hms⟩ := map_trim_eq_cons h
    obtain ⟨u, v, hu, hl⟩ := cut?_closing_trim l
    obtain ⟨u', v', hu', hl'⟩ := cut?_closing_trim m
    rw [← hm] at hl'
    cases hcut : cut? closing (trim l) with
    | some c =>
      rw [hcut, Option.map_some] at hl hl'
      rw [enclosed_cons_of_some hl, enclosed_cons_of_some hl']
      refine ⟨?_, rfl, rfl⟩
      rw [List.flatMap_singleton, List.flatMap_singleton]
      apply hlineText
      rw [trim_blanks_append hu, trim_blanks_append hu']
    | none =>
      rw [hcut, Option.map_none] at hl hl'
      obtain ⟨hinner, htaken, hclosed⟩ := ih hms
      rw [enclosed_cons_of_none hl, enclosed_cons_of_none hl']
      refine ⟨?_, congrArg (· + 1) htaken, hclosed⟩
      rw [List.flatMap_cons, List.flatMap_cons, hinner, hlineText hm]

/-- **A paragraph depends on its lines as they are trimmed**, as the others do. -/
theorem Paragraph.read_congr (afterOpening : Text) (h : ls.map trim = ls'.map trim) :
    read afterOpening ls = read afterOpening ls' := by
  obtain ⟨hinner, htaken, hclosed⟩ := enclosed_congr
    (show (skipOption afterOpening :: ls).map trim = (skipOption afterOpening :: ls').map trim from
      congrArg (trim (skipOption afterOpening) :: ·) h)
  unfold read
  dsimp only
  rw [hinner, htaken, hclosed]

/-- **A reader sees trimmed lines.** -/
theorem Line.Reader.congr {read : List Text → Reading} (hread : Line.Reader read)
    (h : ls.map trim = ls'.map trim) : read ls = read ls' := by
  induction hread with
  | alone hr => rfl
  | stamp => exact Stamp.read_congr (collect_congr h _)
  | paragraph afterOpening =>
    refine Paragraph.read_congr afterOpening ?_
    rw [List.map_drop, List.map_drop, h]
  | gloss indent unwrap hlf => exact Catalogue.readGloss_congr indent unwrap (collect_congr h _)
  | after notices _ ih => exact congrArg (Reading.after notices) ih

end

/-! ## §3. Bodies. -/

section

variable {d : Dialect}

/-- A line that says something is read as it is trimmed, with the lines below. -/
theorem Line.read_eq (hd : d.BuiltIn) (first : Text) (rest : List Text) :
    Line.read d first rest
      = if isSilent (trim first) then Reading.empty
        else readTrimmed d (trim first) (first :: rest) := by
  unfold Line.read
  dsimp only
  rw [hd.readAs_eq, Option.getD_none, trim_trimRight]

theorem readLines_nil : readLines d [] = Reading.empty := by rw [readLines]

/-- A body is read line by line, from the first one that has not been taken. -/
theorem readLines_cons (first : Text) (rest : List Text) :
    readLines d (first :: rest) = Line.read d first rest
      ++ readLines d (rest.drop ((Line.read d first rest).taken - 1)) := by
  rw [readLines]

/-- **Blanks at the ends of its lines make no difference to a body.** -/
theorem readLines_congr (hd : d.BuiltIn) {ls ls' : List Text} (h : ls.map trim = ls'.map trim) :
    readLines d ls = readLines d ls' := by
  induction ls using readLines.induct d generalizing ls' with
  | case1 => rw [List.map_eq_nil_iff.1 h.symm]
  | case2 first rest r =>
    rename_i ih
    obtain ⟨first', rest', rfl, hfirst, hrest⟩ := map_trim_eq_cons h
    have hread : r = Line.read d first' rest' := by
      show Line.read d first rest = _
      rw [Line.read_eq hd, Line.read_eq hd, ← hfirst,
        (Line.reader_readTrimmed hd (trim first)).congr h]
    rw [readLines_cons, readLines_cons, ← hread]
    refine congrArg (r ++ ·) (ih ?_)
    rw [List.map_drop, List.map_drop, hrest]

end

end FolioGrid
