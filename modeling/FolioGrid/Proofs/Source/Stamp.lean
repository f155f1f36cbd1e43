/-
  FolioGrid.Proofs.Source.Stamp
  ────────────────────────────────
  **SEALS READ BACK.**

  A seal is kept as the markup that stamps it, in a canonical form.  What is
  written in that form already comes back byte by byte; what stands behind it
  does not.
-/
import FolioGrid.Proofs.Reading.Readers
import FolioGrid.Proofs.Source.Line

namespace FolioGrid.Stamp

open FolioGrid.Text FolioGrid.Markup

variable {options file behind : Text}

theorem canonical_eq (options file : Text) :
    canonical options file = commandLine stampCommand (some options) file [] := by
  simp [canonical, commandLine]

theorem after?_line : after? stampCommand (commandLine stampCommand (some options) file behind)
    = some (option options ++ (group file ++ behind)) :=
  after?_append _ _

/-- It has no blanks that could be removed. -/
theorem solid_line (hoptions : Plain options) (hfile : Plain file) (hbehind : Solid behind) :
    Solid (commandLine stampCommand (some options) file behind) :=
  solid_commandLine ⟨by decide +kernel, by decide +kernel⟩
    (fun _ ho => Option.some.inj ho ▸ hoptions.solid) hfile.solid hbehind

/-- Its options and its file are found, and what stands behind them is not kept. -/
theorem canonical?_line (hoptions : brackets.Passes options) (hfile : braces.Passes file)
    (hnonempty : options ≠ [] ∧ file ≠ []) :
    canonical? (commandLine stampCommand (some options) file behind)
      = some (canonical options file) := by
  have hoption : (optionalArgument? (option options ++ (group file ++ behind))).bind filled
      = some ⟨options, group file ++ behind, true⟩ := by
    rw [optionalArgument?_option hoptions]
    exact if_pos ⟨rfl, hnonempty.1⟩
  have hgroup : (braceArgument? (group file ++ behind)).bind filled
      = some ⟨file, behind, true⟩ := by
    rw [braceArgument?_group hfile]
    exact if_pos ⟨rfl, hnonempty.2⟩
  unfold canonical?
  rw [after?_line, Option.bind_eq_bind, Option.bind_some, hoption, Option.bind_eq_bind,
    Option.bind_some, hgroup]
  show some (stampCommand ++ option options ++ group file) = _
  rw [List.append_assoc]
  rfl

/-- A line is read as a seal from the bracket behind the command on. -/
theorem read_openBracket {d : Dialect} (hd : d.BuiltIn) (u : Text) (below : List Text) :
    Line.read d (stampCommand ++ openBracket :: u) below
      = read ((stampCommand ++ openBracket :: u) :: below) := by
  have htrim : trim (stampCommand ++ openBracket :: u)
      = stampCommand ++ openBracket :: trimRight u :=
    trim_append_cons (b := backslash) rfl (by decide) (by decide)
  rw [Line.read_eq hd, htrim]
  generalize trimRight u = v
  -- a seal is tried after headings and page ends
  have hsilent : Line.isSilent (stampCommand ++ openBracket :: v) = false := rfl
  have hne : stampCommand ++ openBracket :: v ≠ [] :=
    List.append_ne_nil_of_left_ne_nil (by decide) _
  have htitle : Line.chapterTitle? (stampCommand ++ openBracket :: v) = none := rfl
  have hpage : stampCommand ++ openBracket :: v ≠ Line.newPageCommand :=
    Line.ne_of_after?_eq_none rfl
  have hstamp : isStamp (stampCommand ++ openBracket :: v) = true := by
    unfold isStamp
    rw [after?_append]
    rfl
  unfold Line.readTrimmed
  simp only [hsilent, Bool.false_eq_true, if_neg hne, htitle, if_neg hpage, hstamp, if_true,
    if_false]

/-- **A seal is read in its canonical form**, whatever words stand behind it. -/
theorem read_line {d : Dialect} (hd : d.BuiltIn) (hoptions : Plain options) (hfile : Plain file)
    (hbehind : Solid behind) (below : List Text) :
    Line.read d (commandLine stampCommand (some options) file behind) below
      = .ofBlock (.stamp (canonical options file)) := by
  have hsolid := solid_line hoptions hfile hbehind
  have hcollect := collect_commandLine hsolid.trimmed
    (fun _ ho => Option.some.inj ho ▸ hoptions.noMarkup openBrace (by decide))
    hfile.passes_braces hfile.lineFeed_not_mem below
  have hread := read_openBracket hd (options ++ closeBracket :: (group file ++ behind)) below
  rw [show stampCommand ++ openBracket :: (options ++ closeBracket :: (group file ++ behind))
      = commandLine stampCommand (some options) file behind by
    simp [commandLine, option]] at hread
  rw [hread]
  unfold read
  rw [hcollect]
  unfold markup
  have hcanonical : canonical? (commandLine stampCommand (some options) file behind) = _ :=
    canonical?_line hoptions.passes_brackets hfile.passes_braces ⟨hoptions.nonempty, hfile.nonempty⟩
  simp only [hsolid.removeBlanks_eq, hcanonical, if_true, Option.getD_some]
  rfl

/-- **A seal is read back.** -/
theorem read_canonical {d : Dialect} (hd : d.BuiltIn) (hoptions : Plain options)
    (hfile : Plain file) (below : List Text) :
    Line.read d (canonical options file) below = .ofBlock (.stamp (canonical options file)) := by
  have hread := read_line hd hoptions hfile Solid.nil below
  rwa [← canonical_eq] at hread

end FolioGrid.Stamp
