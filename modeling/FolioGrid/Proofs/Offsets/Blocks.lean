/-
  FolioGrid.Proofs.Offsets.Blocks
  ────────────────────────────────
  **SEALS AND PARAGRAPHS BY OFFSETS.**

  A seal and a paragraph take lines at a cursor, until an argument closes or the
  mark of an end is found.  A line is read only where the cursor has one, and the
  byte in front of a comment only where there is one.
-/
import FolioGrid.Proofs.Offsets.Reading

namespace FolioGrid.Offsets

open FolioGrid.Text FolioGrid.Markup

variable {t u : Text} {i : Nat}

/-! ## §1. Seals. -/

/-- Whether a line stamps a seal. -/
def isStamp (line : Text) : Checked Bool := do
  let here ← startsWith line Stamp.stampCommand
  if here then do
    let options ← optionalArgument line Stamp.stampCommand.length
    pure options.isSome
  else pure false

/-- A line stamps a seal if options open behind the command's name. -/
theorem isStamp_eq (line : Text) : isStamp line = .ok (Stamp.isStamp line) := by
  unfold isStamp Stamp.isStamp
  rw [startsWith_eq, ok_bind]
  cases ha : after? Stamp.stampCommand line with
  | none => rfl
  | some rest =>
    rw [Option.isSome_some, if_pos rfl, (Rest.of_after? ha).optionalArgument, ok_bind,
      Option.isSome_map, Option.bind_some]
    rfl

/-- Whether an argument closes and is not empty. -/
def Found.filled (found : Found) : Bool := found.closed && found.content ≠ []

/-- Only an argument that is closed and not empty counts. -/
theorem filter_filled (t : Text) (a : Option Argument) :
    (a.map (Found.of t)).filter Found.filled = (a.bind Stamp.filled).map (Found.of t) := by
  cases a with
  | none => rfl
  | some a =>
    unfold Stamp.filled
    by_cases hfilled : a.closed = true ∧ a.content ≠ []
    · simp [Found.filled, Found.of, hfilled]
    · rw [Option.bind_some, if_neg hfilled]
      rw [not_and] at hfilled
      by_cases hclosed : a.closed = true
      · simpa [Found.filled, Found.of, hclosed] using hfilled hclosed
      · simp [Found.filled, Found.of, hclosed]

/-- The command with its two arguments and nothing else, of a text without blanks. -/
def canonical (flat : Text) : Checked (Option Text) := do
  let options ← optionalArgument flat Stamp.stampCommand.length
  let here ← startsWith flat Stamp.stampCommand
  match (if here then options.filter Found.filled else none) with
  | none => pure none
  | some options => do
    let file ← braceArgument flat options.stop
    pure ((file.filter Found.filled).map fun file =>
      Stamp.stampCommand ++ option options.content ++ group file.content)

/-- The markup of a collected seal. -/
def stampMarkup (c : Collected) : Checked Text := do
  let flat ← removeBlanks c.text
  if c.closed then
    let whole ← canonical flat
    pure (whole.getD flat)
  else pure flat

/-- A seal is written anew from its options and its file, if it has both. -/
theorem canonical_eq (flat : Text) : canonical flat = .ok (Stamp.canonical? flat) := by
  unfold canonical Stamp.canonical?
  rw [startsWith_eq]
  cases ha : after? Stamp.stampCommand flat with
  | none =>
    -- the options may be looked for beyond the end, and then there are none
    have hsafe : ∃ options, optionalArgument flat Stamp.stampCommand.length = .ok options := by
      by_cases hlength : Stamp.stampCommand.length ≤ flat.length
      · exact ⟨_, (Rest.of_le hlength).optionalArgument⟩
      · exact ⟨none, optionalArgument_of_le (Nat.le_of_not_le hlength)⟩
    obtain ⟨options, hoptions⟩ := hsafe
    rw [hoptions]
    rfl
  | some rest =>
    have h := Rest.of_after? ha
    rw [h.optionalArgument, ok_bind, ok_bind, Option.isSome_some, if_pos rfl, filter_filled]
    simp only [Option.bind_eq_bind, Option.bind_some]
    cases hoptions : (optionalArgument? rest).bind Stamp.filled with
    | none => rfl
    | some options =>
      obtain ⟨a, ha', hfilled⟩ := Option.bind_eq_some_iff.1 hoptions
      have hsame : options = a := by
        unfold Stamp.filled at hfilled
        split at hfilled
        · exact (Option.some.inj hfilled).symm
        · cases hfilled
      have hrest := h.found_option ha'
      rw [← hsame] at hrest
      dsimp only [Option.map_some]
      rw [hrest.braceArgument, ok_bind, filter_filled, Option.bind_some]
      cases (braceArgument? options.rest).bind Stamp.filled with
      | none => rfl
      | some file => rfl

/-- A seal that was closed is written anew where that can be done; else its text is kept. -/
theorem stampMarkup_eq (c : Collected) : stampMarkup c = .ok (Stamp.markup c) := by
  unfold stampMarkup Stamp.markup
  rw [removeBlanks_eq, ok_bind]
  cases c.closed with
  | false => rfl
  | true =>
    rw [if_pos rfl, canonical_eq]
    rfl

/-- Read a seal at a cursor. -/
def readStamp (c : Cursor) : Checked (List Block × Cursor) := do
  let (collected, next) ← collect Stamp.stampCommand c
  let markup ← stampMarkup collected
  pure ([.stamp markup], next)

/-- A seal takes the lines of its argument from the cursor. -/
theorem readStamp_eq (c : Cursor) :
    readStamp c = .ok ((Stamp.read c.rest).blocks, c.follow (Stamp.read c.rest)) := by
  unfold readStamp
  rw [collect_eq, ok_bind]
  show (do
    let markup ← stampMarkup (FolioGrid.collect Stamp.stampCommand c.rest)
    pure ([Block.stamp markup], _)) = _
  rw [stampMarkup_eq]
  rfl

/-! ## §2. The layout of a paragraph. -/

/-- The indent that stands under a key of the options, or else a given one. -/
def indentOption (options : Table) (key : Text) (otherwise : Int) : Checked Int :=
  match options.get? key with
  | none => pure otherwise
  | some value =>
    if isNumeral value then do
      let count ← readCount value
      pure (match count with
        | some n => n
        | none => otherwise)
    else pure otherwise

/-- The indents that the options of a paragraph say. -/
def indents (options : Option Found) : Checked (Int × Int) :=
  match options with
  | none => pure (0, 0)
  | some found => do
    let table ← optionTable found.content
    let indent ← indentOption table (utf8 "indent") 0
    let firstIndent ← indentOption table (utf8 "first-indent") indent
    pure (indent, firstIndent)

/-- An indent that is no numeral, or too large a one, is as good as none. -/
theorem indentOption_eq (options : Table) (key : Text) (otherwise : Int) :
    indentOption options key otherwise
      = .ok (Paragraph.indentOption options key otherwise).value := by
  unfold indentOption Paragraph.indentOption
  cases options.get? key with
  | none => rfl
  | some value =>
    dsimp only
    by_cases hdigits : isNumeral value = true
    · rw [if_pos hdigits, readCount_eq hdigits]
      cases count? value with
      | none => rfl
      | some n => rfl
    · have hnone : count? value = none := by
        unfold count?
        rw [if_neg (by simp [hdigits])]
      rw [if_neg hdigits, hnone]
      rfl

/-- The two indents of a paragraph come from one list of options, which may be missing. -/
theorem indents_eq (t : Text) (options : Option Argument) :
    indents (options.map (Found.of t))
      = .ok (Paragraph.indents (Markup.optionTable (options.elim [] (·.content)))).value := by
  unfold indents
  cases options with
  | none =>
    have hempty : Markup.optionTable [] = Table.empty := by decide
    dsimp only [Option.map_none, Option.elim_none]
    rw [hempty]
    rfl
  | some a =>
    dsimp only [Option.map_some, Option.elim_some]
    rw [optionTable_eq, ok_bind, indentOption_eq, ok_bind, indentOption_eq]
    rfl

/-! ## §3. The lines of a paragraph. -/

/-- Whether a backslash stands in front of an offset. -/
def escaped (line : Text) (i : Nat) : Checked Bool :=
  if i = 0 then pure false
  else do
    let before ← difference i 1
    let b ← itemAt line before
    pure (decide (b = backslash))

/-- A line up to its comment. -/
def beforeComment (line : Text) : Checked Text := go 0
where
  /-- The search from an offset on. -/
  go (i : Nat) : Checked Text :=
    if _h : i < line.length then do
      let b ← itemAt line i
      if b = percent then
        let kept ← escaped line i
        if kept then go (i + 1) else slice line 0 i
      else go (i + 1)
    else pure line
  termination_by line.length - i

/-- Whether a byte is escaped is asked of the byte in front of it, if there is one. -/
theorem escaped_length (before u : Text) :
    escaped (before ++ u) before.length = .ok (decide (before.getLast? = some backslash)) := by
  unfold escaped
  rcases List.eq_nil_or_concat before with rfl | ⟨x, b, rfl⟩
  · rfl
  · have hlast : itemAt (x ++ [b] ++ u) x.length = .ok b := by
      rw [List.append_assoc]
      exact (Rest.of_append x ([b] ++ u)).itemAt
    rw [List.concat_eq_append, if_neg (by simp), List.length_append, List.length_singleton,
      difference_of_le (Nat.le_add_left 1 _), ok_bind, Nat.add_sub_cancel, hlast]
    simp

/-- **Up to a comment**, a line is kept byte by byte; the sign is passed over where it is
escaped. -/
theorem beforeComment_go (before u : Text) :
    beforeComment.go (before ++ u) before.length
      = .ok (before ++ Paragraph.beforeComment (decide (before.getLast? = some backslash)) u) := by
  induction u generalizing before with
  | nil =>
    have h := Rest.of_append before ([] : Text)
    rw [beforeComment.go, dif_neg h.not_lt]
    rfl
  | cons b u ih =>
    have h := Rest.of_append before (b :: u)
    have next : beforeComment.go (before ++ b :: u) (before.length + 1)
        = .ok (before ++ b :: Paragraph.beforeComment (decide (b = backslash)) u) := by
      have hnext := ih (before ++ [b])
      rw [List.append_assoc, List.length_append] at hnext
      simpa using hnext
    rw [beforeComment.go, dif_pos h.lt, h.itemAt, ok_bind]
    unfold Paragraph.beforeComment
    by_cases hb : b = percent
    · rw [if_pos hb, escaped_length, ok_bind]
      by_cases hlast : before.getLast? = some backslash
      · rw [if_pos (decide_eq_true hlast), next, if_neg (by simp [hlast])]
      · have hstart : slice (before ++ b :: u) 0 before.length = .ok before :=
          (Rest.start (before ++ b :: u)).slice
        rw [if_neg (by simpa using hlast), hstart, if_pos (by simp [hb, hlast]), List.append_nil]
    · rw [if_neg hb, next, if_neg (by simp [hb])]

/-- What a line adds to a paragraph. -/
def lineText (line : Text) : Checked Text := do
  let words ← trim line
  if words = [] then pure []
  else do
    let b ← itemAt words 0
    if b = percent then pure []
    else do
      let kept ← beforeComment words
      trimRight kept

/-- A line of a paragraph is trimmed once its comment is gone. -/
theorem lineText_eq (line : Text) : lineText line = .ok (Paragraph.lineText line) := by
  unfold lineText Paragraph.lineText
  rw [trim_eq, ok_bind]
  cases Text.trim line with
  | nil => rfl
  | cons b words =>
    have hkept : beforeComment (b :: words)
        = .ok (Paragraph.beforeComment false (b :: words)) := beforeComment_go [] (b :: words)
    rw [if_neg (List.cons_ne_nil b words), (Rest.start (b :: words)).itemAt, ok_bind]
    by_cases hb : b = percent
    · rw [if_pos hb]
      unfold Paragraph.beforeComment
      rw [if_pos (by simp [hb])]
      rfl
    · rw [if_neg hb, hkept, ok_bind, trimRight_eq]

/-- What a paragraph reads before it ends, and whether it does. -/
structure Body where
  /-- The words. -/
  text : Text
  /-- Whether the mark of the end was there. -/
  closed : Bool
  /-- The cursor behind it. -/
  next : Cursor

/-- What a line adds up to the mark of the end, and whether that is there. -/
def linePart (line : Text) : Checked (Text × Bool) :=
  match find? Paragraph.closing line 0 with
  | none => do
    let words ← lineText line
    pure (words, false)
  | some i => do
    let part ← slice line 0 i
    let words ← lineText part
    pure (words, true)

/-- Read on in a paragraph of which some words have been read. -/
def readOn (text : Text) (closed : Bool) (c : Cursor) : Checked Body :=
  if _h : ¬ closed ∧ ¬ c.atEnd then do
    let line ← current c
    let part ← linePart line
    readOn (text ++ part.1) part.2 (c.advance 1)
  else pure ⟨text, closed, c⟩
termination_by c.rest.length
decreasing_by exact length_rest_advance _h.2

/-- The closing mark is looked for in the whole line, and what stands in front of it is
read. -/
theorem linePart_eq (line : Text) :
    linePart line = .ok (match cut? Paragraph.closing line with
      | some c => (Paragraph.lineText c.before, true)
      | none => (Paragraph.lineText line, false)) := by
  have h := Rest.start line
  unfold linePart
  rw [h.find?]
  cases hc : cut? Paragraph.closing line with
  | none =>
    dsimp only [Option.map_none]
    rw [lineText_eq]
    rfl
  | some c =>
    dsimp only [Option.map_some]
    rw [Nat.zero_add, (h.cut hc).slice, ok_bind, lineText_eq]
    rfl

/-- Read a line of a paragraph of which some words have been read, and on from the lines at a
cursor. -/
def readLine (line text : Text) (c : Cursor) : Checked Body := do
  let part ← linePart line
  readOn (text ++ part.1) part.2 c

/-- From one line to the next, what has been read of a paragraph grows, until the mark is
met or no line is left. -/
theorem readLine_eq (line text : Text) (c : Cursor) :
    ∃ n, (Paragraph.enclosed (line :: c.rest)).taken = n + 1
      ∧ readLine line text c
        = .ok ⟨text ++ (Paragraph.enclosed (line :: c.rest)).inner.flatMap Paragraph.lineText,
            (Paragraph.enclosed (line :: c.rest)).closed, c.advance n⟩ := by
  unfold readLine
  rw [linePart_eq, ok_bind]
  unfold Paragraph.enclosed
  cases hcut : cut? Paragraph.closing line with
  | some cut =>
    refine ⟨0, rfl, ?_⟩
    rw [readOn, dif_neg (by simp), advance_zero]
    simp
  | none =>
    dsimp only
    cases hrest : c.rest with
    | nil =>
      refine ⟨0, rfl, ?_⟩
      rw [readOn, dif_neg (by simp [atEnd_of_nil hrest]), advance_zero]
      simp [Paragraph.enclosed]
    | cons next rest =>
      have hnext : (c.advance 1).rest = rest := by rw [rest_advance, hrest]; rfl
      obtain ⟨n, htaken, hread⟩ :=
        readLine_eq next (text ++ Paragraph.lineText line) (c.advance 1)
      rw [hnext] at htaken hread
      refine ⟨1 + n, by rw [htaken, Nat.add_comm n 1], ?_⟩
      rw [readOn, dif_pos (by simp [atEnd_of_cons hrest]), current_of_cons hrest, ok_bind]
      show readLine next (text ++ Paragraph.lineText line) (c.advance 1) = _
      rw [hread, advance_advance, List.flatMap_cons, List.append_assoc]
termination_by c.rest.length
decreasing_by rw [hnext, hrest, List.length_cons]; omega

/-- Read a paragraph, of which the first line has been read, at a cursor. -/
def readParagraph (line : Text) (c : Cursor) : Checked (List Block × Cursor) := do
  let options ← optionalArgument line Paragraph.opening.length
  let layout ← indents options
  let stop := match options with
    | some found => found.stop
    | none => Paragraph.opening.length
  let first ← sliceFrom line stop
  let body ← readLine first [] (c.advance 1)
  let words ← clean body.text
  pure (if words = [] then [] else [.paragraph ⟨words, layout.1, layout.2⟩],
    if body.closed then body.next else body.next.noteUnbalanced)

/-- **A paragraph** takes the lines up to its mark from the cursor. -/
theorem readParagraph_eq {line rest : Text} {c : Cursor}
    (h : after? Paragraph.opening line = some rest) :
    readParagraph line c
      = .ok ((Paragraph.read rest (c.rest.drop 1)).blocks,
          c.follow (Paragraph.read rest (c.rest.drop 1))) := by
  have hrest := Rest.of_after? h
  have hstop : Rest line (match (optionalArgument? rest).map (Found.of line) with
      | some found => found.stop
      | none => Paragraph.opening.length) (Markup.skipOption rest) := by
    unfold Markup.skipOption
    cases hoptions : optionalArgument? rest with
    | none => exact hrest
    | some a => exact hrest.found_option hoptions
  obtain ⟨n, htaken, hread⟩ := readLine_eq (Markup.skipOption rest) [] (c.advance 1)
  unfold readParagraph
  rw [hrest.optionalArgument, ok_bind, indents_eq, ok_bind]
  dsimp only
  rw [hstop.sliceFrom, ok_bind, hread, ok_bind, clean_eq, ok_bind, advance_advance]
  unfold Paragraph.read Cursor.follow
  rw [rest_advance] at htaken ⊢
  dsimp only
  rw [htaken, Nat.add_comm n 1]
  cases (Paragraph.enclosed (Markup.skipOption rest :: c.rest.drop 1)).closed with
  | true => rfl
  | false => rfl

end FolioGrid.Offsets
