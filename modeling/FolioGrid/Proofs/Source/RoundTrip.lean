/-
  FolioGrid.Proofs.Source.RoundTrip
  ────────────────────────────────
  **READING UNDOES WRITING.**

  A body that was written from canonical blocks is read as these blocks, with
  nothing to report (`Document.ofText_source`).  Each block takes as many lines
  as it was written in (`Block.Canonical.read_source`), and none of the lines
  could be taken for the end of the body (`Block.Canonical.bodyLine`).
-/
import FolioGrid.Proofs.Document.Parts
import FolioGrid.Proofs.Source.Paragraph
import FolioGrid.Proofs.Source.Stamp

namespace FolioGrid

open FolioGrid.Text FolioGrid.Markup

/-! ## §1. Glosses. -/

namespace Catalogue

variable {base : Int} {t : Text} {raised : List Segment}

/-- A gloss in which nothing is raised has no segments of its own. -/
theorem raisedGloss_nil (base : Int) (t : Text) : raisedGloss base t [] = ⟨t, base, []⟩ := by
  simp [raisedGloss]

theorem raisedGloss_of_ne_nil (h : raised ≠ []) : raisedGloss base t raised
    = ⟨t ++ raised.flatMap (·.text), base, ⟨t, 0, false⟩ :: raised⟩ := by
  simp [raisedGloss, h]

/-- The argument of a gloss is made from its words and its segments again. -/
theorem argument_raisedGloss (base : Int) (t : Text) (raised : List Segment) :
    (raisedGloss base t raised).argument = raisedArgument t raised := by
  cases raised with
  | nil => rfl
  | cons s raised => rfl

/-- A gloss is read back from a line with any command that the dialect knows as
one of a gloss, if nothing that is tried before could be meant. -/
theorem read_annotation (name : Text) {label behind : Text} {unwrap : Bool} (hbase : base ≤ 4)
    (h : Plain t) (hraised : ∀ s ∈ raised, s.Raised base) (hhead : name.head? = some backslash)
    (htrim : Trimmed (commandLine name none (raisedArgument t raised) behind))
    (hother : ∀ p ∈ Entry.entryCommand :: Line.openings, ¬ p <+: name ∧ ¬ name <+: p)
    (hlabel : label ≠ [])
    (hname : commandName (commandLine name none (raisedArgument t raised) behind) = label)
    (hknown : ∀ line lines,
      dialect.readCommand label line lines = some (readGloss name base unwrap lines))
    (rest : List Text) :
    Line.read dialect (commandLine name none (raisedArgument t raised) behind) rest
      = .ofBlock (.gloss (raisedGloss base t raised)) := by
  have hline : (commandLine name none (raisedArgument t raised) behind).head?
      = some backslash := by
    obtain ⟨u, rfl⟩ := List.head?_eq_some_iff.1 hhead
    rfl
  have hread : readGloss name base unwrap
      (commandLine name none (raisedArgument t raised) behind :: rest)
      = .ofBlock (.gloss (raisedGloss base t raised)) :=
    readGloss_line hbase h hraised rest
      (collect_commandLine htrim (by simp) (passes_raisedArgument h hraised)
        (lineFeed_not_mem_raisedArgument h hraised) rest)
  refine Line.read_known .catalogue hline htrim ?_ ?_ ?_
  · intro p hp
    exact after?_append_eq_none (hother p hp).1 (hother p hp).2 _
  · rw [hname]
    exact hlabel
  · rw [hname, hknown, hread]

/-- The same for the two commands of the catalogue, whatever stands behind. -/
theorem read_glossLine (hbase : base = 2 ∨ base = 4) (h : Plain t)
    (hraised : ∀ s ∈ raised, s.Raised base) {behind : Text}
    (htrim : Trimmed
      (commandLine (raisedGloss base t raised).command none (raisedArgument t raised) behind))
    (rest : List Text) :
    Line.read dialect
        (commandLine (raisedGloss base t raised).command none (raisedArgument t raised) behind) rest
      = .ofBlock (.gloss (raisedGloss base t raised)) := by
  rcases hbase with rfl | rfl
  · exact read_annotation (command "注") (by decide) h hraised rfl htrim
      (by decide +kernel) (by decide : utf8 "注" ≠ []) rfl (fun _ _ => rfl) rest
  · exact read_annotation (command "按") (by decide) h hraised rfl htrim
      (by decide +kernel) (by decide : utf8 "按" ≠ []) rfl (fun _ _ => rfl) rest

theorem head?_command (a : Gloss) : a.command.head? = some backslash := by
  unfold Gloss.command
  split
  · rfl
  · rfl

/-- **A gloss is read back** from its command and its argument. -/
theorem read_gloss (hbase : base = 2 ∨ base = 4) (h : Plain t)
    (hraised : ∀ s ∈ raised, s.Raised base) (rest : List Text) :
    Line.read dialect
        ((raisedGloss base t raised).command ++ group (raisedGloss base t raised).argument) rest
      = .ofBlock (.gloss (raisedGloss base t raised)) := by
  rw [argument_raisedGloss, ← commandLine_none]
  exact read_glossLine hbase h hraised (Line.trimmed_commandLine (head?_command _)) rest

end Catalogue

/-! ## §2. Blocks. -/

/-- **Each block is read from the lines in which it was written**, and from no
more. -/
theorem Block.Canonical.read_source {b : Block} (h : b.Canonical) :
    ∃ first more, b.source = first :: more
      ∧ ∀ below, Line.read Catalogue.dialect first (more ++ below)
          = { blocks := [b], lines := more.length + 1 } := by
  cases h with
  | chapter h => exact ⟨_, [], rfl, Line.read_chapter .catalogue h⟩
  | newPage => exact ⟨_, [], rfl, Line.read_newPage .catalogue⟩
  | stamp hoptions hfile => exact ⟨_, [], rfl, Stamp.read_canonical .catalogue hoptions hfile⟩
  | text h => exact ⟨_, [], rfl, Line.read_plain .catalogue h⟩
  | entry hlevel h => exact ⟨_, [], rfl, Line.read_entry .catalogue hlevel h⟩
  | paragraph h hindent hfirst =>
    exact ⟨_, [_, _], rfl, Paragraph.read_lines .catalogue h hindent hfirst⟩
  | gloss hbase h =>
    rw [← Catalogue.raisedGloss_nil]
    exact ⟨_, [], rfl, Catalogue.read_gloss hbase h (by simp)⟩
  | raised hbase h hne hraised =>
    rw [← Catalogue.raisedGloss_of_ne_nil hne]
    exact ⟨_, [], rfl, Catalogue.read_gloss hbase h hraised⟩

/-- The lines of canonical blocks are read as the blocks. -/
theorem readLines_source {blocks : List Block} (h : ∀ b ∈ blocks, b.Canonical) :
    readLines Catalogue.dialect (blocks.flatMap Block.source ++ [[]])
      = { blocks := blocks, lines := (blocks.flatMap Block.source).length } := by
  induction blocks with
  | nil =>
    rw [List.flatMap_nil, List.nil_append, readLines]
    show Reading.empty ++ readLines Catalogue.dialect [] = _
    rw [readLines]
    rfl
  | cons b blocks ih =>
    obtain ⟨first, more, hsource, hread⟩ := (h b List.mem_cons_self).read_source
    have htaken : (more ++ (blocks.flatMap Block.source ++ [[]])).drop (max 1 (more.length + 1) - 1)
        = blocks.flatMap Block.source ++ [[]] := by
      rw [show max 1 (more.length + 1) - 1 = more.length by omega, List.drop_left]
    -- the block takes its own lines along, so the rest is read from the next block on
    rw [List.flatMap_cons, List.append_assoc, hsource, List.cons_append, readLines, hread]
    show _ ++ readLines _ (List.drop (max 1 (more.length + 1) - 1) _) = _
    rw [htaken, ih fun b hb => h b (List.mem_cons_of_mem _ hb)]
    have hlines : more.length + 1 + (blocks.flatMap Block.source).length
        = (first :: more ++ blocks.flatMap Block.source).length := by
      rw [List.cons_append, List.length_cons, List.length_append]
      omega
    rw [← hlines]
    rfl

/-! ## §3. Bodies. -/

/-- A line that can stand in a body: no white is taken off its head, it is one
line, and it ends nothing. -/
structure BodyLine (l : Text) : Prop where
  /-- It starts with no white. -/
  head : ∃ b t, l = b :: t ∧ isSpace b = false
  /-- It is one line. -/
  oneLine : lineFeed ∉ l
  /-- It holds no mark at which a body or its document ends. -/
  noEnd : ∀ m ∈ documentEnd :: bodyEnds, ¬ m <:+: l

/-- What every mark of an end starts with. -/
def endOpening : Text := [backslash, ascii 'e']

/-- Where no environment is closed at all, none of the marks stands that end the body. -/
theorem noEnd_of_not_infix {l : Text} (h : ¬ endOpening <:+: l) :
    ∀ m ∈ documentEnd :: bodyEnds, ¬ m <:+: l := by
  intro m hm hin
  have hopens : ∀ m ∈ documentEnd :: bodyEnds, endOpening <+: m := by decide
  exact h ((hopens m hm).isInfix.trans hin)

/-- A plain text can be a line of a body. -/
theorem Text.Plain.bodyLine {t : Text} (h : Plain t) : BodyLine t where
  head := by
    obtain ⟨b, u, rfl⟩ := List.exists_cons_of_ne_nil h.nonempty
    exact ⟨b, u, rfl, h.solid.space b List.mem_cons_self⟩
  oneLine := h.lineFeed_not_mem
  noEnd := noEnd_of_not_infix (not_infix_of_not_mem h.backslash_not_mem)

/-- So can a command with an argument, if neither closes an environment or breaks the line. -/
theorem BodyLine.group {name t : Text} (hhead : name.head? = some backslash)
    (hname : lineFeed ∉ name) (hnameEnd : ¬ endOpening <:+: name) (ht : lineFeed ∉ t)
    (htEnd : ¬ endOpening <:+: t) : BodyLine (name ++ group t) where
  head := by
    obtain ⟨u, rfl⟩ := List.head?_eq_some_iff.1 hhead
    exact ⟨backslash, u ++ Markup.group t, rfl, by decide⟩
  oneLine := by
    rw [List.mem_append, not_or]
    exact ⟨hname, not_mem_group (by decide) (by decide) ht⟩
  noEnd := by
    refine noEnd_of_not_infix ?_
    rw [← List.append_nil (name ++ Markup.group t), infix_group_iff (by decide +kernel)]
    simp only [not_or]
    exact ⟨hnameEnd, htEnd, by decide⟩

theorem lineFeed_not_mem_option {name o : Text} (hname : lineFeed ∉ name) (ho : lineFeed ∉ o) :
    lineFeed ∉ name ++ option o := by
  rw [List.mem_append, not_or]
  exact ⟨hname, not_mem_option (by decide) (by decide) ho⟩

theorem not_infix_option {name o : Text} (hname : ¬ endOpening <:+: name) (ho : backslash ∉ o) :
    ¬ endOpening <:+: name ++ option o := by
  rw [show name ++ option o = name ++ openBracket :: (o ++ closeBracket :: []) by simp [option],
    infix_append_cons_iff (by decide), infix_append_cons_iff (by decide)]
  simp only [not_or]
  exact ⟨hname, not_infix_of_not_mem ho, by decide⟩

/-- A gloss is written on one such line. -/
theorem Catalogue.bodyLine_gloss {base : Int} {t : Text} {raised : List Segment}
    (hbase : base = 2 ∨ base = 4) (h : Plain t) (hraised : ∀ s ∈ raised, s.Raised base) :
    BodyLine ((raisedGloss base t raised).command
      ++ Markup.group (raisedGloss base t raised).argument) := by
  have hlf := lineFeed_not_mem_raisedArgument h hraised
  have hend : ¬ endOpening <:+: raisedArgument t raised :=
    not_infix_raisedArgument (by decide +kernel) (by decide +kernel) h hraised
  rw [argument_raisedGloss]
  rcases hbase with rfl | rfl
  · show BodyLine (Markup.command "注" ++ _)
    exact BodyLine.group rfl (by decide) (by decide +kernel) hlf hend
  · show BodyLine (Markup.command "按" ++ _)
    exact BodyLine.group rfl (by decide) (by decide +kernel) hlf hend

/-- **Every line that was written can stand in a body.** -/
theorem Block.Canonical.bodyLine {b : Block} (h : b.Canonical) : ∀ l ∈ b.source, BodyLine l := by
  have hplain : ∀ {t : Text}, Plain t → ¬ endOpening <:+: t :=
    fun ht => not_infix_of_not_mem ht.backslash_not_mem
  intro l hl
  cases h with
  | chapter h =>
    rw [List.mem_singleton.1 hl]
    exact BodyLine.group rfl (by decide) (by decide +kernel) h.lineFeed_not_mem (hplain h)
  | newPage =>
    rw [List.mem_singleton.1 hl]
    exact ⟨⟨_, _, rfl, by decide⟩, by decide, noEnd_of_not_infix (by decide +kernel)⟩
  | stamp hoptions hfile =>
    rw [List.mem_singleton.1 hl, Stamp.canonical, ← List.append_assoc]
    exact BodyLine.group rfl (lineFeed_not_mem_option (by decide) hoptions.lineFeed_not_mem)
      (not_infix_option (by decide +kernel) hoptions.backslash_not_mem) hfile.lineFeed_not_mem
      (hplain hfile)
  | text h =>
    rw [List.mem_singleton.1 hl]
    exact h.bodyLine
  | @entry level t hlevel h =>
    have hnumeral := plain_natDecimal level
    rw [List.mem_singleton.1 hl, decimal_natCast]
    exact BodyLine.group rfl (lineFeed_not_mem_option (by decide) hnumeral.lineFeed_not_mem)
      (not_infix_option (by decide +kernel) hnumeral.backslash_not_mem) h.lineFeed_not_mem
      (hplain h)
  | @paragraph t indent firstIndent h hindent hfirst =>
    rcases List.mem_cons.1 hl with rfl | hl
    · have hlf := Paragraph.not_mem_options (b := lineFeed) (by decide) (by decide) (by decide) t
        indent firstIndent
      have hbackslash := Paragraph.not_mem_options (b := backslash) (by decide) (by decide)
        (by decide) t indent firstIndent
      exact ⟨⟨_, _, rfl, by decide⟩, lineFeed_not_mem_option (by decide) hlf,
        noEnd_of_not_infix (not_infix_option (by decide +kernel) hbackslash)⟩
    rcases List.mem_cons.1 hl with rfl | hl
    · exact h.bodyLine
    · -- the one line that starts like a mark of an end
      rw [List.mem_singleton.1 hl]
      exact ⟨⟨_, _, rfl, by decide⟩, by decide, by decide +kernel⟩
  | gloss hbase h =>
    rw [← Catalogue.raisedGloss_nil] at hl
    rw [List.mem_singleton.1 hl]
    exact Catalogue.bodyLine_gloss hbase h (by simp)
  | raised hbase h hne hraised =>
    rw [← Catalogue.raisedGloss_of_ne_nil hne] at hl
    rw [List.mem_singleton.1 hl]
    exact Catalogue.bodyLine_gloss hbase h hraised

/-- The lines of blocks, one below the other. -/
def sourceBody (blocks : List Block) : Text := joinLines (blocks.flatMap Block.source)

section

variable {blocks : List Block}

/-- **The lines of canonical blocks** can be lines of a body. -/
theorem bodyLine_of_mem_source (h : ∀ b ∈ blocks, b.Canonical) :
    ∀ l ∈ blocks.flatMap Block.source, BodyLine l := by
  intro l hl
  obtain ⟨b, hb, hlb⟩ := List.mem_flatMap.1 hl
  exact (h b hb).bodyLine l hlb

/-- No white in front of a body is lost, and its lines are those that were
written; the last one, behind its last line feed, is empty. -/
theorem lines_sourceBody (h : ∀ b ∈ blocks, b.Canonical) :
    lines ((sourceBody blocks ++ [lineFeed]).dropWhile isSpace)
      = blocks.flatMap Block.source ++ [[]] := by
  have hlines := bodyLine_of_mem_source h
  unfold sourceBody
  cases hsource : blocks.flatMap Block.source with
  | nil => rfl
  | cons first rest =>
    rw [hsource] at hlines
    obtain ⟨b, t, rfl, hb⟩ := (hlines first List.mem_cons_self).head
    -- the first byte of the first line is no white
    have hhead : ∃ u, joinLines ((b :: t) :: rest) = b :: u := by
      cases rest with
      | nil => exact ⟨t, by simp [joinLines]⟩
      | cons second rest => exact ⟨_, joinLines_cons _ (by simp)⟩
    obtain ⟨u, hu⟩ := hhead
    have hdrop : (joinLines ((b :: t) :: rest) ++ [lineFeed]).dropWhile isSpace
        = joinLines ((b :: t) :: rest) ++ lineFeed :: [] := by
      rw [hu, List.cons_append, List.dropWhile_cons_of_neg (by simp [hb])]
    rw [hdrop, lines_append_cons, lines_joinLines (by simp) fun l hl => (hlines l hl).oneLine]
    rfl

/-- **Reading undoes writing.** Any canonical blocks, however many and in whatever
order, are read back from the bare document in which they were written: no
block is lost or added, and there is nothing to report. -/
theorem Document.ofText_source (h : ∀ b ∈ blocks, b.Canonical) :
    Document.ofText Catalogue.dialect (inDocument (sourceBody blocks)) =
      .ok
        { preamble := documentBegin
          preserved := [lineFeed]
          blocks := blocks
          footer := documentEnd
          unbalanced := 0
          unrecognized := 0
          notices := [] } := by
  -- a mark would stand on one line, and no line that was written holds any
  have hend : ∀ m ∈ documentEnd :: bodyEnds, ¬ m <:+: sourceBody blocks := by
    intro m hm hin
    have hm' : ∀ m ∈ documentEnd :: bodyEnds, m ≠ [] ∧ lineFeed ∉ m := by decide
    obtain ⟨l, hl, hml⟩ := (infix_joinLines_iff (hm' m hm).1 (hm' m hm).2).1 hin
    exact (bodyLine_of_mem_source h l hl).noEnd m hm hml
  rw [Document.ofText_inDocument _ hend, lines_sourceBody h, readLines_source h]
  rfl

end

/-- One block of each form. -/
def sampleBlocks : List Block :=
  [.chapter (utf8 "經部"), .stamp (Stamp.canonical (utf8 "page=1") (utf8 "文淵閣寶")),
    .entry 3 (utf8 "周易注疏"),
    .gloss ⟨utf8 "魏王弼注", 2, []⟩,
    .gloss ⟨utf8 "臣等謹案御纂周易", 4, [⟨utf8 "臣等謹案", 0, false⟩, ⟨utf8 "御纂周易", -5, true⟩]⟩,
    .newPage, .paragraph ⟨utf8 "右易類", 2, 0⟩, .text (utf8 "易類") 0]

/-- The lines that are written for them. -/
def sampleLines : List Text :=
  [utf8 "\\chapter\x7b經部\x7d", utf8 "\\印章[page=1]\x7b文淵閣寶\x7d",
    utf8 "\\条目[3]\x7b周易注疏\x7d", utf8 "\\注\x7b魏王弼注\x7d",
    utf8 "\\按\x7b臣等謹案\\相对抬头[5]\x7b御纂周易\x7d\x7d", utf8 "\\newpage",
    utf8 "\\begin\x7b段落\x7d[indent=2, first-indent=0]", utf8 "右易類",
    utf8 "\\end\x7b段落\x7d", utf8 "易類"]

/-- The blocks as they are written, -/
theorem flatMap_source_sampleBlocks : sampleBlocks.flatMap Block.source = sampleLines := by
  decide +kernel

/-- which is the canonical way, -/
theorem canonical_sampleBlocks : ∀ b ∈ sampleBlocks, b.Canonical := by
  intro b hb
  simp only [sampleBlocks, List.mem_cons, List.not_mem_nil, or_false] at hb
  rcases hb with rfl | rfl | rfl | rfl | rfl | rfl | rfl | rfl
  · exact .chapter (plain_utf8 (by decide) (by decide +kernel))
  · exact .stamp (plain_utf8 (by decide) (by decide +kernel))
      (plain_utf8 (by decide) (by decide +kernel))
  · exact .entry (by decide) (plain_utf8 (by decide) (by decide +kernel))
  · exact .gloss (Or.inl rfl) (plain_utf8 (by decide) (by decide +kernel))
  · rw [show utf8 "臣等謹案御纂周易" = utf8 "臣等謹案"
        ++ [(⟨utf8 "御纂周易", -5, true⟩ : Segment)].flatMap (·.text) by decide +kernel]
    refine .raised (Or.inr rfl) (plain_utf8 (by decide) (by decide +kernel))
      (List.cons_ne_nil _ _) ?_
    intro s hs
    rw [List.mem_singleton.1 hs]
    exact ⟨plain_utf8 (by decide) (by decide +kernel), ⟨5, rfl, by decide⟩, rfl⟩
  · exact .newPage
  · exact .paragraph (plain_utf8 (by decide) (by decide +kernel)) (by decide) (by decide)
  · exact .text (plain_utf8 (by decide) (by decide +kernel))

/-- and as they are read back. -/
theorem ofText_sampleBlocks :
    Document.ofText Catalogue.dialect (inDocument (joinLines sampleLines)) =
      .ok
        { preamble := documentBegin
          preserved := [lineFeed]
          blocks := sampleBlocks
          footer := documentEnd
          unbalanced := 0
          unrecognized := 0
          notices := [] } := by
  rw [← flatMap_source_sampleBlocks]
  exact Document.ofText_source canonical_sampleBlocks

end FolioGrid
