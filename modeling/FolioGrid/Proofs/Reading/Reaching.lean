/-
  FolioGrid.Proofs.Reading.Reaching
  ────────────────────────────────
  **WHERE READING COMES.**

  Each reading takes some lines, and the next one starts below them (`Reaches`).  A
  reading that does not take all lines has seen nothing of what stands below them
  (`Line.read_append_of_lines_lt`), so it makes no difference to the way to a line
  what stands from there on: `Reaches.exists_readLines`.
-/
import FolioGrid.Proofs.Reading.Closed

namespace FolioGrid

open FolioGrid.Text FolioGrid.Markup

variable {d : Dialect} {command first : Text} {ls rest : List Text}

/-! ## §1. Readings that stop. -/

/-- An argument that is collected from fewer than all lines closed. -/
theorem collect_append_of_lines_lt (h : (collect command ls).lines < ls.length)
    (more : List Text) : collect command (ls ++ more) = collect command ls := by
  refine collect_append ?_ more
  have hcollects := collects command ls
  generalize collect command ls = r at h hcollects ⊢
  cases hcollects with
  | closed => rfl
  | unclosed => exact absurd h (Nat.lt_irrefl _)

/-- A paragraph that takes fewer than all lines is closed in them. -/
theorem Paragraph.enclosed_append_of_taken_lt (h : (enclosed ls).taken < ls.length)
    (more : List Text) :
    enclosed (ls ++ more) = enclosed ls := by
  induction ls with
  | nil => exact absurd h (Nat.not_lt_zero _)
  | cons l ls ih =>
    cases hcut : cut? closing l with
    | some c => rw [List.cons_append, enclosed_cons_of_some hcut, enclosed_cons_of_some hcut]
    | none =>
      rw [enclosed_cons_of_none hcut, List.length_cons] at h
      rw [List.cons_append, enclosed_cons_of_none hcut, enclosed_cons_of_none hcut,
        ih (Nat.lt_of_succ_lt_succ h)]

/-- **A reader that does not take all lines** reads them in one way, whatever stands
below. -/
theorem Line.Reader.append {read : List Text → Reading} (hread : Line.Reader read)
    (h : (read (first :: rest)).lines < rest.length + 1) (more : List Text) :
    read (first :: rest ++ more) = read (first :: rest) := by
  induction hread with
  | alone hr => rfl
  | stamp => exact Stamp.read_congr (collect_append_of_lines_lt h more)
  | paragraph afterOpening =>
    have htaken : (Paragraph.enclosed (skipOption afterOpening :: rest)).taken
        < (skipOption afterOpening :: rest).length := h
    show Paragraph.read afterOpening (rest ++ more) = Paragraph.read afterOpening rest
    unfold Paragraph.read
    rw [← List.cons_append, Paragraph.enclosed_append_of_taken_lt htaken]
  | gloss indent unwrap _ =>
    exact Catalogue.readGloss_congr indent unwrap (collect_append_of_lines_lt h more)
  | after notices _ ih => exact congrArg (Reading.after notices) (ih h)

theorem Line.read_append_of_lines_lt (hd : d.BuiltIn)
    (h : (Line.read d first rest).lines < rest.length + 1) (more : List Text) :
    Line.read d first (rest ++ more) = Line.read d first rest := by
  rw [Line.read_eq hd] at h
  rw [Line.read_eq hd, Line.read_eq hd]
  split
  · rfl
  · next hsilent =>
    rw [if_neg hsilent] at h
    exact (reader_readTrimmed hd (trim first)).append h more

/-! ## §2. The way to a line. -/

/-- What is left of some lines each time that one more has been read. -/
inductive Reaches (d : Dialect) (ls : List Text) : List Text → Prop where
  /-- All of them. -/
  | all : Reaches d ls ls
  /-- What is not taken by the reading of a first line. -/
  | next {first : Text} {rest : List Text} (h : Reaches d ls (first :: rest)) :
      Reaches d ls (rest.drop ((Line.read d first rest).taken - 1))

/-- **The way to a line is the same, whatever stands from there on.** -/
theorem Reaches.exists_readLines (hd : d.BuiltIn) {left : List Text} (h : Reaches d ls left)
    (hleft : left ≠ []) :
    ∃ r, ∀ more, readLines d (ls ++ more) = r ++ readLines d (left ++ more) := by
  induction h with
  | all => exact ⟨Reading.empty, fun more => (Reading.empty_append _).symm⟩
  | @next first rest _ ih =>
    obtain ⟨r, hr⟩ := ih (List.cons_ne_nil first rest)
    -- something is left below, so the reading stopped above it
    have htaken : (Line.read d first rest).taken - 1 < rest.length := by
      by_contra hall
      exact hleft (List.drop_eq_nil_iff.2 (Nat.le_of_not_lt hall))
    have hlines : (Line.read d first rest).lines < rest.length + 1 := by
      unfold Reading.taken at htaken
      omega
    refine ⟨r ++ Line.read d first rest, fun more => ?_⟩
    rw [hr, List.cons_append, readLines_cons, Line.read_append_of_lines_lt hd hlines,
      List.drop_append_of_le_length (Nat.le_of_lt htaken), Reading.append_assoc]

end FolioGrid
