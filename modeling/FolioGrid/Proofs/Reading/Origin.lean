/-
  FolioGrid.Proofs.Reading.Origin
  ────────────────────────────────
  **WHERE BLOCKS COME FROM.**

  A block of a body was made by one line and by those that the line took along.
  `Line.Gives` lists the ways in which a line gives a block, one constructor
  for each, and two inversions lead back to it:

      exists_read_of_mem_readLines — from a body to one of its lines
      Line.gives_of_mem_read       — from a line to the way it was read

  What is to hold of all blocks is then shown for each constructor.  Of a gloss
  more is known: the line was read as its command, with what damage there was
  (`Line.exists_readCommand_of_gloss`).
-/
import FolioGrid.Reading.Body

namespace FolioGrid

open FolioGrid.Text FolioGrid.Markup

/-! ## §1. Readings in sequence. -/

theorem Reading.blocks_append (r s : Reading) : (r ++ s).blocks = r.blocks ++ s.blocks := rfl

/-- An argument that does not count as damage was closed. -/
theorem Collected.closed_of_unbalanced {c : Collected} (h : c.unbalanced = 0) :
    c.closed = true := by
  unfold Collected.unbalanced at h
  split at h
  · next hclosed => exact hclosed
  · cases h

/-- A block of a body was read at one of its lines, and what was not closed there
was not closed in the body. -/
theorem exists_read_of_mem_readLines {dialect : Dialect} {b : Block} (lines : List Text)
    (h : b ∈ (readLines dialect lines).blocks) :
    ∃ first rest, first :: rest <:+ lines ∧ b ∈ (Line.read dialect first rest).blocks
      ∧ (Line.read dialect first rest).unbalanced ≤ (readLines dialect lines).unbalanced := by
  induction lines using readLines.induct dialect with
  | case1 =>
    rw [readLines] at h
    cases h
  | case2 first rest r ih =>
    -- the blocks of the first line come first; behind them, some lines are skipped
    have hsum : (readLines dialect (first :: rest)).unbalanced
        = r.unbalanced + (readLines dialect (rest.drop (r.taken - 1))).unbalanced := by
      rw [readLines]
      rfl
    rw [readLines, Reading.blocks_append, List.mem_append] at h
    rcases h with h | h
    · exact ⟨first, rest, List.suffix_refl _, h, hsum ▸ Nat.le_add_right _ _⟩
    · obtain ⟨first', rest', hsuffix, hb, hle⟩ := ih h
      refine ⟨first', rest', ?_, hb, Nat.le_trans hle (hsum ▸ Nat.le_add_left _ _)⟩
      exact hsuffix.trans ((List.drop_suffix _ rest).trans (List.suffix_cons first rest))

/-! ## §2. The ways of a line. -/

namespace Line

/-- The blocks that a line gives, where it is the first of some lines and is
given as it is read. -/
inductive Gives (dialect : Dialect) (line : Text) (lines : List Text) : Block → Prop where
  /-- A chapter's heading. -/
  | chapter {title : Text} (h : chapterTitle? line = some title) :
      Gives dialect line lines (.chapter title)
  /-- The end of a page. -/
  | newPage (h : line = newPageCommand) : Gives dialect line lines .newPage
  /-- A seal. -/
  | stamp (h : Stamp.isStamp line = true) :
      Gives dialect line lines (.stamp (Stamp.markup (collect Stamp.stampCommand lines)))
  /-- A paragraph, unless it has no words. -/
  | paragraph {rest : Text} {b : Block} (h : after? Paragraph.opening line = some rest)
      (hb : b ∈ (Paragraph.read rest (lines.drop 1)).blocks) : Gives dialect line lines b
  /-- An entry. -/
  | entry {b : Block} (h : (Entry.ofLine? line).value = some b) : Gives dialect line lines b
  /-- A line of text, or a command that nothing knows. -/
  | plain (words : clean line ≠ []) : Gives dialect line lines (.text (clean line) 0)
  /-- A line that is one style wrapper. -/
  | styled {t : Text} (h : styledText? line = some t) (words : t ≠ []) :
      Gives dialect line lines (.text t 0)
  /-- A command that the dialect knows. -/
  | command {r : Reading} {b : Block}
      (h : dialect.readCommand (commandName line) line lines = some r) (hb : b ∈ r.blocks) :
      Gives dialect line lines b

variable {dialect : Dialect} {line : Text} {lines : List Text} {b : Block}

/-- Running text gives one block, unless it is empty. -/
theorem mem_blocks_ofText {t : Text} (h : b ∈ (Reading.ofText t).blocks) :
    t ≠ [] ∧ b = .text t 0 := by
  unfold Reading.ofText at h
  split at h
  · cases h
  · next ht => exact ⟨ht, List.mem_singleton.1 h⟩

/-- A block of a command comes from the dialect, or is the words of a style or of the line, -/
theorem gives_of_mem_readCommand (h : b ∈ (readCommand dialect line lines).blocks) :
    Gives dialect line lines b := by
  unfold readCommand at h
  dsimp only at h
  split at h
  · -- the dialect knows the command, which has a name then
    next r hr =>
    split at hr
    · cases hr
    · exact .command hr h
  · split at h
    · next t ht =>
      obtain ⟨words, rfl⟩ := mem_blocks_ofText h
      exact .styled ht words
    · obtain ⟨words, rfl⟩ := mem_blocks_ofText (t := clean line) h
      exact .plain words

/-- and a block of any line comes from the first of the ways that fits. -/
theorem gives_of_mem_readTrimmed (h : b ∈ (readTrimmed dialect line lines).blocks) :
    Gives dialect line lines b := by
  -- one split for each thing that a line is tried as, in the order of the trials
  unfold readTrimmed at h
  split at h
  · cases h
  split at h
  · next title ht =>
    rw [List.mem_singleton.1 h]
    exact .chapter ht
  split at h
  · next hline =>
    rw [List.mem_singleton.1 h]
    exact .newPage hline
  split at h
  · next hstamp =>
    rw [List.mem_singleton.1 h]
    exact .stamp hstamp
  split at h
  · next rest hrest => exact .paragraph hrest h
  split at h
  · next entry notices hentry =>
    rw [List.mem_singleton.1 h]
    exact .entry (congrArg Logged.value hentry)
  split at h
  · exact gives_of_mem_readCommand h
  · obtain ⟨words, rfl⟩ := mem_blocks_ofText (t := clean line) h
    exact .plain words

/-- **A block that a line gives** comes in one of the ways of the list, from
the line without the blanks at its ends. -/
theorem gives_of_mem_read {first : Text} {rest : List Text}
    (h : b ∈ (read dialect first rest).blocks) :
    Gives dialect (trim ((dialect.readAs (trimRight first)).getD (trimRight first)))
      (first :: rest) b := by
  unfold read at h
  dsimp only at h
  split at h
  · cases h
  · exact gives_of_mem_readTrimmed h

/-! ## §3. Glosses. -/

/-- A paragraph's environment gives nothing but a paragraph, -/
theorem exists_paragraph_of_mem_read {afterOpening : Text} {below : List Text}
    (h : b ∈ (Paragraph.read afterOpening below).blocks) : ∃ p, b = .paragraph p := by
  have h' := show b ∈ (if _ then [] else [Block.paragraph _]) from h
  split at h'
  · cases h'
  · exact ⟨_, List.mem_singleton.1 h'⟩

/-- an entry nothing but an entry, -/
theorem exists_entry_of_ofLine? (h : (Entry.ofLine? line).value = some b) :
    ∃ level t, b = .entry level t := by
  unfold Entry.ofLine? at h
  split at h
  · cases h
  split at h
  · cases h
  · obtain ⟨t, -, ht⟩ := Option.map_eq_some_iff.1 h
    exact ⟨_, _, ht.symm⟩

variable {a : Gloss} {r : Reading}

/-- and running text no gloss. -/
theorem gloss_not_mem_ofText {t : Text} : Block.gloss a ∉ (Reading.ofText t).blocks := by
  intro h
  obtain ⟨-, htext⟩ := mem_blocks_ofText h
  cases htext

/-- So a gloss comes from a command that the dialect knows, -/
theorem readCommand_of_gloss_mem (h : Block.gloss a ∈ (readCommand dialect line lines).blocks) :
    dialect.readCommand (commandName line) line lines = some (readCommand dialect line lines) := by
  unfold readCommand at h ⊢
  dsimp only at h ⊢
  split at h
  · next known hknown =>
    split at hknown
    · cases hknown
    · exact hknown
  · split at h
    · exact absurd h gloss_not_mem_ofText
    · exact absurd h gloss_not_mem_ofText

/-- whatever notices have been made before. -/
theorem exists_readCommand_of_gloss_mem_readTrimmed (hread : readTrimmed dialect line lines = r)
    (h : Block.gloss a ∈ r.blocks) :
    ∃ known notices, dialect.readCommand (commandName line) line lines = some known
      ∧ r = known.after notices := by
  unfold readTrimmed at hread
  split at hread
  · cases hread
    cases h
  split at hread
  · cases hread
    cases List.mem_singleton.1 h
  split at hread
  · cases hread
    cases List.mem_singleton.1 h
  split at hread
  · cases hread
    cases List.mem_singleton.1 h
  split at hread
  · cases hread
    obtain ⟨p, hp⟩ := exists_paragraph_of_mem_read h
    cases hp
  split at hread
  · next entry notices hentry =>
    cases hread
    obtain ⟨level, t, ht⟩ := exists_entry_of_ofLine? (congrArg Logged.value hentry)
    rw [ht] at h
    cases List.mem_singleton.1 h
  split at hread
  · subst hread
    exact ⟨_, _, readCommand_of_gloss_mem h, rfl⟩
  · subst hread
    exact absurd h gloss_not_mem_ofText

/-- **A gloss comes from a command that the dialect knows**, and its line was read as
that command. -/
theorem exists_readCommand_of_gloss {first : Text} {rest : List Text}
    (h : Block.gloss a ∈ (read dialect first rest).blocks) :
    ∃ known notices, dialect.readCommand
          (commandName (trim ((dialect.readAs (trimRight first)).getD (trimRight first))))
          (trim ((dialect.readAs (trimRight first)).getD (trimRight first))) (first :: rest)
        = some known
      ∧ read dialect first rest = known.after notices := by
  unfold read at h ⊢
  dsimp only at h ⊢
  split at h
  · cases h
  · next hsilent =>
    rw [if_neg hsilent]
    exact exists_readCommand_of_gloss_mem_readTrimmed rfl h

end Line

end FolioGrid
