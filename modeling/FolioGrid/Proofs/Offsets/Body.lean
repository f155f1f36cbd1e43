/-
  FolioGrid.Proofs.Offsets.Body
  ────────────────────────────────
  **BODIES BY OFFSETS.**

  A body is read at a cursor.  What a line is read as may leave the cursor where it
  is or pass lines; if it stays, one line is passed.  So the cursor comes nearer to
  its end in each round, and it is read only where it has not reached it.
-/
import FolioGrid.Proofs.Offsets.Blocks
import FolioGrid.Proofs.Offsets.Elevation
import FolioGrid.Proofs.Reading.Readers

namespace FolioGrid.Offsets

open FolioGrid.Text FolioGrid.Markup

variable {k : Template} {c next : Cursor} {r : Reading}

/-! ## §1. Cursors behind a reading. -/

/-- Where the cursor is left by what has read a line: where it was, or behind the lines taken. -/
inductive Left (c : Cursor) (r : Reading) : Cursor → Prop where
  /-- It has not been moved. -/
  | still (hlines : r.taken = 1) (hclosed : r.unbalanced = 0) : Left c r c
  /-- The lines that were taken have been passed. -/
  | moved (hlines : 1 ≤ r.lines) : Left c r (c.follow r)

/-- A cursor that stands where another one stood passes a line. -/
def moveOn (c next : Cursor) : Cursor :=
  if next.position = c.position then next.advance 1 else next

/-- Wherever it is left, the cursor then stands behind the lines that were taken. -/
theorem Left.moveOn_eq (h : Left c r next) (hc : c.rest ≠ []) :
    moveOn c next = pass c r.taken r.unbalanced := by
  unfold moveOn
  cases h with
  | still hlines hclosed =>
    rw [if_pos rfl, hlines, hclosed]
    rfl
  | moved hlines =>
    have hpos := List.length_pos_iff.2 hc
    have hposition : ¬ (c.follow r).position = c.position := by
      show ¬ c.position + min r.lines c.rest.length = c.position
      omega
    have htaken : r.taken = r.lines := Nat.max_eq_right hlines
    rw [if_neg hposition, htaken]
    rfl

/-- Collecting takes a line at least, where there is one. -/
theorem one_le_lines_collect (command : Text) {lines : List Text} (h : lines ≠ []) :
    1 ≤ (FolioGrid.collect command lines).lines := by
  have grows : ∀ (rest : List Text) (t : Text) (taken : Nat),
      taken ≤ (FolioGrid.collect.go command t taken rest).lines := by
    intro rest
    induction rest with
    | nil =>
      intro t taken
      unfold FolioGrid.collect.go
      split
      · exact Nat.le_refl taken
      · exact Nat.le_refl taken
    | cons line rest ih =>
      intro t taken
      unfold FolioGrid.collect.go
      split
      · exact Nat.le_refl taken
      · exact Nat.le_trans (Nat.le_succ taken) (ih _ _)
  obtain ⟨line, rest, rfl⟩ := List.exists_cons_of_ne_nil h
  exact grows rest _ 1

/-! ## §2. Lines. -/

/-- A line of text is a block unless it is empty. -/
def textBlocks (t : Text) : List Block := if t = [] then [] else [.text t 0]

/-- What a line has been read as: blocks, the number of unknown commands, and a cursor. -/
abbrev LineRead := List Block × Nat × Cursor

/-- Read a command, if it has a name that the template knows. -/
def readKnown (k : Template) (name : Text) (c : Cursor) : Checked (Option (List Block × Cursor)) :=
  if name = [] then pure none else k.readCommand name c

/-- Read a line that starts with a command which only a template can know. -/
def readCommand (k : Template) (line : Text) (c : Cursor) : Checked LineRead := do
  let name ← commandName line
  let known ← readKnown k name c
  match known with
  | some (blocks, next) => pure (blocks, 0, next)
  | none => do
    let styled ← styledText line
    match styled with
    | some words => pure (textBlocks words, 0, c)
    | none => do
      let words ← clean line
      pure (textBlocks words, 1, c)

/-- Read a line that is no heading, page end, seal or paragraph. -/
def readOther (k : Template) (line : Text) (c : Cursor) : Checked LineRead := do
  let found ← entry line
  match found with
  | some block => pure ([block], 0, c)
  | none => do
    let b ← itemAt line 0
    if b = backslash then readCommand k line c
    else do
      let words ← clean line
      pure (textBlocks words, 0, c)

/-- Read a line at a cursor. -/
def readTrimmed (k : Template) (line : Text) (c : Cursor) : Checked LineRead := do
  if line = [] then pure ([], 0, c)
  else do
    let title ← chapterTitle line
    match title with
    | some title => pure ([.chapter title], 0, c)
    | none =>
      if line = Line.newPageCommand then pure ([.newPage], 0, c)
      else do
        let stamps ← isStamp line
        if stamps then do
          let (blocks, next) ← readStamp c
          pure (blocks, 0, next)
        else do
          let paragraph ← startsWith line Paragraph.opening
          if paragraph then do
            let (blocks, next) ← readParagraph line c
            pure (blocks, 0, next)
          else readOther k line c

/-- Read a line, which may have blanks at its ends, at a cursor. -/
def readStripped (k : Template) (line : Text) (c : Cursor) : Checked LineRead := do
  let stripped ← trim line
  readTrimmed k stripped c

/-- A checked reading of a line is the one of the library. -/
def ReadsAs (c : Cursor) (r : Reading) (result : Checked LineRead) : Prop :=
  ∃ next, result = .ok (r.blocks, r.unrecognized, next) ∧ Left c r next

/-- Running text takes its line and no other. -/
theorem readsAs_text (t : Text) (c : Cursor) :
    ReadsAs c (Reading.ofText t) (.ok (textBlocks t, 0, c)) := ⟨c, rfl, .still rfl rfl⟩

/-- A command that the dialect knows takes as many lines as its reading has, and the cursor
follows. -/
theorem readKnown_eq (k : Template) (name line : Text) (c : Cursor) :
    readKnown k name c
      = .ok ((if name = [] then none else k.dialect.readCommand name line c.rest).map
          fun r => (r.blocks, c.follow r)) := by
  unfold readKnown
  by_cases hname : name = []
  · rw [if_pos hname, if_pos hname]
    rfl
  · rw [if_neg hname, if_neg hname, k.readCommand_eq name line]

/-- A command that a template knows takes a line at least. -/
theorem known_of_readCommand {name line : Text} (hc : c.rest ≠ [])
    (h : k.dialect.readCommand name line c.rest = some r) : 1 ≤ r.lines ∧ r.unrecognized = 0 := by
  cases k with
  | plain => cases h
  | catalogue =>
    have hgloss : ∀ {command : Text} {indent : Int} {unwrap : Bool},
        some (Catalogue.readGloss command indent unwrap c.rest) = some r →
          1 ≤ r.lines ∧ r.unrecognized = 0 := by
      rintro command indent unwrap ⟨⟩
      exact ⟨one_le_lines_collect command hc, rfl⟩
    have h' : Catalogue.readCommand name line c.rest = some r := h
    unfold Catalogue.readCommand at h'
    split at h'
    · exact hgloss h'
    split at h'
    · exact hgloss h'
    · cases h'

/-- A line that begins with a command is read as one, known or not. -/
theorem readCommand_reads (line : Text) (hc : c.rest ≠ []) :
    ReadsAs c (Line.readCommand k.dialect line c.rest) (readCommand k line c) := by
  unfold readCommand Line.readCommand
  rw [commandName_eq, ok_bind, readKnown_eq k _ line, ok_bind]
  dsimp only
  cases hknown : (if Markup.commandName line = [] then none
      else k.dialect.readCommand (Markup.commandName line) line c.rest) with
  | some r =>
    have hread : k.dialect.readCommand (Markup.commandName line) line c.rest = some r := by
      split at hknown
      · cases hknown
      · exact hknown
    obtain ⟨hlines, hunrecognized⟩ := known_of_readCommand hc hread
    refine ⟨c.follow r, ?_, .moved hlines⟩
    rw [hunrecognized]
    rfl
  | none =>
    dsimp only [Option.map_none]
    rw [styledText_eq, ok_bind]
    cases Line.styledText? line with
    | some words => exact readsAs_text words c
    | none =>
      dsimp only
      rw [clean_eq, ok_bind]
      exact ⟨c, rfl, .still rfl rfl⟩

/-- Reports are not read by offsets. -/
theorem ReadsAs.after {result : Checked LineRead} (h : ReadsAs c r result) (notices : List Notice) :
    ReadsAs c (r.after notices) result := by
  obtain ⟨next, hresult, hleft⟩ := h
  refine ⟨next, hresult, ?_⟩
  cases hleft with
  | still hlines hclosed => exact .still hlines hclosed
  | moved hlines => exact .moved (r := r.after notices) hlines

/-- Any other line is an entry or running text. -/
theorem readOther_reads {line : Text} (hline : line ≠ []) (hc : c.rest ≠ []) :
    ReadsAs c
      (match Entry.ofLine? line with
        | ⟨some entry, notices⟩ => (Reading.ofBlock entry).after notices
        | ⟨none, notices⟩ =>
          if line.head? = some backslash then
            (Line.readCommand k.dialect line c.rest).after notices
          else (Reading.ofText (Text.clean line)).after notices)
      (readOther k line c) := by
  unfold readOther
  rw [entry_eq, ok_bind]
  obtain ⟨found, notices⟩ := Entry.ofLine? line
  cases found with
  | some block => exact ⟨c, rfl, .still rfl rfl⟩
  | none =>
    obtain ⟨b, rest, rfl⟩ := List.exists_cons_of_ne_nil hline
    dsimp only
    rw [(Rest.start (b :: rest)).itemAt, ok_bind, List.head?_cons]
    by_cases hb : b = backslash
    · rw [if_pos hb, if_pos (congrArg some hb)]
      exact (readCommand_reads (b :: rest) hc).after notices
    · rw [if_neg hb, if_neg (fun h => hb (Option.some.inj h)), clean_eq, ok_bind]
      exact (readsAs_text _ c).after notices

/-- A paragraph takes the line on which it begins. -/
theorem one_le_lines_paragraph (afterOpening : Text) (below : List Text) :
    1 ≤ (Paragraph.read afterOpening below).lines := by
  show 1 ≤ (Paragraph.enclosed (Markup.skipOption afterOpening :: below)).taken
  unfold Paragraph.enclosed
  split
  · exact Nat.le_refl 1
  · exact Nat.le_add_left 1 _

/-- **Reading a line by offsets** is reading it. -/
theorem readTrimmed_reads (line : Text) (hc : c.rest ≠ []) :
    ReadsAs c (Line.readTrimmed k.dialect line c.rest) (readTrimmed k line c) := by
  unfold readTrimmed Line.readTrimmed
  by_cases hline : line = []
  · rw [if_pos hline, if_pos hline]
    exact ⟨c, rfl, .still rfl rfl⟩
  rw [if_neg hline, if_neg hline, chapterTitle_eq, ok_bind]
  cases Line.chapterTitle? line with
  | some title => exact ⟨c, rfl, .still rfl rfl⟩
  | none =>
    dsimp only
    by_cases hpage : line = Line.newPageCommand
    · rw [if_pos hpage, if_pos hpage]
      exact ⟨c, rfl, .still rfl rfl⟩
    rw [if_neg hpage, if_neg hpage, isStamp_eq, ok_bind]
    by_cases hstamp : Stamp.isStamp line = true
    · rw [if_pos hstamp, if_pos hstamp, readStamp_eq]
      exact ⟨_, rfl, .moved (one_le_lines_collect _ hc)⟩
    rw [if_neg hstamp, if_neg hstamp, startsWith_eq, ok_bind]
    cases hparagraph : after? Paragraph.opening line with
    | some rest =>
      rw [Option.isSome_some, if_pos rfl, readParagraph_eq hparagraph]
      exact ⟨_, rfl, .moved (one_le_lines_paragraph rest _)⟩
    | none =>
      rw [Option.isSome_none, if_neg Bool.false_ne_true]
      exact readOther_reads hline hc

/-! ## §3. Bodies. -/

/-- Whether a line without blanks at its ends says nothing. -/
def isSilent (line : Text) : Checked Bool :=
  if line = [] then pure true
  else do
    let b ← itemAt line 0
    pure (decide (b = percent))

/-- A line says nothing if it is empty or begins with the sign of a comment, and only where
it is not empty is there a first byte. -/
theorem isSilent_eq (line : Text) : isSilent line = .ok (Line.isSilent line) := by
  unfold isSilent Line.isSilent
  cases line with
  | nil => rfl
  | cons b line =>
    rw [if_neg (List.cons_ne_nil b line), (Rest.start (b :: line)).itemAt]
    simp

/-- What a body has been read as: blocks, the number of unknown commands, and of those that did
not close. -/
structure BodyRead where
  /-- The blocks, in order. -/
  blocks : List Block
  /-- How many commands were unknown. -/
  unrecognized : Nat
  /-- How many commands did not close. -/
  unbalanced : Nat

/-- Read the lines at a cursor to their end, behind what has been read. -/
def readLines (k : Template) (c : Cursor) (blocks : List Block) (unrecognized : Nat) :
    Checked BodyRead :=
  if _h : c.atEnd then pure ⟨blocks, unrecognized, c.unbalanced⟩
  else do
    let first ← current c
    let line ← trimRight first
    let stripped ← trim line
    let silent ← isSilent stripped
    if silent then readLines k (c.advance 1) blocks unrecognized
    else do
      let (found, unknown, next) ← readStripped k line c
      if _hnext : (moveOn c next).rest.length < c.rest.length then
        readLines k (moveOn c next) (blocks ++ found) (unrecognized + unknown)
      else .error .stuck
termination_by c.rest.length
decreasing_by
  · exact length_rest_advance _h
  · exact _hnext

/-- **Reading lines by offsets** is reading them. -/
theorem readLines_eq (k : Template) (c : Cursor) (blocks : List Block) (unrecognized : Nat) :
    readLines k c blocks unrecognized
      = .ok ⟨blocks ++ (FolioGrid.readLines k.dialect c.rest).blocks,
          unrecognized + (FolioGrid.readLines k.dialect c.rest).unrecognized,
          c.unbalanced + (FolioGrid.readLines k.dialect c.rest).unbalanced⟩ := by
  rw [readLines]
  cases hrest : c.rest with
  | nil =>
    rw [dif_pos (atEnd_of_nil hrest), readLines_nil]
    simp [Reading.empty]
  | cons first rest =>
    have hc : c.rest ≠ [] := by rw [hrest]; exact List.cons_ne_nil first rest
    have hline := Line.read_eq k.builtIn first rest
    rw [dif_neg (by rw [atEnd_of_cons hrest]; decide), current_of_cons hrest, ok_bind,
      trimRight_eq, ok_bind, trim_eq, ok_bind, isSilent_eq, ok_bind, trim_trimRight,
      readLines_cons]
    by_cases hsilent : Line.isSilent (Text.trim first) = true
    · rw [if_pos hsilent] at hline
      have hnext : (c.advance 1).rest = rest := by rw [rest_advance, hrest]; rfl
      rw [if_pos hsilent, readLines_eq, hline, hnext,
        show rest.drop (Reading.empty.taken - 1) = rest from List.drop_zero]
      generalize FolioGrid.readLines k.dialect rest = r
      show Except.ok (BodyRead.mk _ _ _) = .ok (BodyRead.mk (blocks ++ ([] ++ r.blocks))
        (unrecognized + (0 + r.unrecognized)) (c.unbalanced + (0 + r.unbalanced)))
      rw [List.nil_append, Nat.zero_add, Nat.zero_add]
      rfl
    · rw [if_neg hsilent, ← hrest] at hline
      obtain ⟨next, hread, hleft⟩ := readTrimmed_reads (k := k) (Text.trim first) hc
      rw [← hline] at hread hleft
      rw [if_neg hsilent, readStripped, trim_eq, ok_bind, trim_trimRight, hread, ok_bind]
      dsimp only
      generalize Line.read k.dialect first rest = r at hleft
      have htaken : 1 ≤ r.taken := Nat.le_max_left 1 r.lines
      have hdrop : (pass c r.taken r.unbalanced).rest = rest.drop (r.taken - 1) := by
        show c.rest.drop r.taken = rest.drop (r.taken - 1)
        obtain ⟨n, hn⟩ := Nat.exists_eq_add_of_le' htaken
        rw [hrest, hn, List.drop_succ_cons, Nat.add_sub_cancel]
      have hshorter : (pass c r.taken r.unbalanced).rest.length < c.rest.length := by
        rw [hdrop, hrest, List.length_drop, List.length_cons]
        omega
      rw [hleft.moveOn_eq hc, dif_pos (hrest ▸ hshorter), readLines_eq, hdrop]
      generalize FolioGrid.readLines k.dialect (rest.drop (r.taken - 1)) = s
      show Except.ok (BodyRead.mk (blocks ++ r.blocks ++ s.blocks)
          (unrecognized + r.unrecognized + s.unrecognized) (c.unbalanced + r.unbalanced + s.unbalanced))
        = .ok (BodyRead.mk (blocks ++ (r.blocks ++ s.blocks))
          (unrecognized + (r.unrecognized + s.unrecognized))
          (c.unbalanced + (r.unbalanced + s.unbalanced)))
      rw [List.append_assoc, Nat.add_assoc, Nat.add_assoc]
termination_by c.rest.length
decreasing_by
  · rw [hnext, hrest, List.length_cons]
    omega
  · exact hshorter

end FolioGrid.Offsets
