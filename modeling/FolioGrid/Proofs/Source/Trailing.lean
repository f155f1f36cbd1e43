/-
  FolioGrid.Proofs.Source.Trailing
  ────────────────────────────────
  **WORDS BEHIND A CLOSING DELIMITER.**

  A construct of the source ends at the delimiter that closes it, and no reader
  looks behind that.  So words may stand there (`Construct.source`) and the
  construct is read all the same, its own words kept in their order
  (`Document.ofText_construct`).  The words behind it are another matter: the
  line is taken, and they are on no other (`not_keepsAll_chapter`).
-/
import FolioGrid.Proofs.Document.Sequence
import FolioGrid.Proofs.GridMarkup.Order
import FolioGrid.Proofs.Layout.Words
import FolioGrid.Proofs.Source.RoundTrip

namespace FolioGrid

open FolioGrid.Text FolioGrid.Markup

/-! ## §1. Constructs. -/

/-- A construct of the source that a delimiter closes. -/
inductive Construct where
  /-- A chapter's heading. -/
  | chapter (a : Text)
  /-- Words in a style. -/
  | styled (style a : Text)
  /-- A gloss. -/
  | gloss (a : Text)
  /-- An editor's note. -/
  | note (a : Text)
  /-- A seal. -/
  | stamp (options a : Text)
  /-- An entry. -/
  | entry (level : Nat) (a : Text)
  /-- An entry that ends with a gloss; what closes the gloss stands inside it. -/
  | glossed (level : Nat) (a options c : Text)
  /-- A paragraph's environment with lines of words. -/
  | paragraph (options : Option Text) (words : List Text)

namespace Construct

/-- The lines of a construct with words behind what closes it. -/
def source (t : Text) : Construct → List Text
  | chapter a => [commandLine (command "chapter") none a t]
  | styled style a => [commandLine styleCommand (some style) a t]
  | gloss a => [commandLine (command "注") none a t]
  | note a => [commandLine (command "按") none a t]
  | stamp options a => [commandLine Stamp.stampCommand (some options) a t]
  | entry level a => [commandLine Entry.entryCommand (some (natDecimal level)) a t]
  | glossed level a options c =>
    [commandLine Entry.entryCommand (some (natDecimal level))
      (commandLine (a ++ Entry.innerGloss) (some options) c t) []]
  | paragraph options words =>
    (Paragraph.opening ++ options.elim [] option) :: (words ++ [Paragraph.closing ++ t])

/-- The words of a construct. -/
def words : Construct → List Text
  | chapter a | styled _ a | gloss a | note a | stamp _ a | entry _ a => [a]
  | glossed _ a _ c => [a, c]
  | paragraph _ words => words

/-- The blocks of a construct whose end is the end of what is read.  Of a seal
and of words in a style this leaves open what becomes of more words on the
line. -/
def blocks? : Construct → Option (List Block)
  | chapter a => some [.chapter a]
  | styled _ _ => none
  | gloss a => some [.gloss ⟨a, 2, []⟩]
  | note a => some [.gloss ⟨a, 4, []⟩]
  | stamp _ _ => none
  | entry level a => some [.entry level a]
  | glossed level a _ c => some [.entry level (a ++ c)]
  | paragraph options words => some (Paragraph.wordsReading options words).blocks

/-- A construct that says only words. -/
inductive Worded : Construct → Prop where
  /-- A heading. -/
  | chapter {a : Text} (h : Plain a) : Worded (.chapter a)
  /-- Words in a style. -/
  | styled {style a : Text} (hstyle : Plain style) (h : Plain a) : Worded (.styled style a)
  /-- A gloss. -/
  | gloss {a : Text} (h : Plain a) : Worded (.gloss a)
  /-- A note. -/
  | note {a : Text} (h : Plain a) : Worded (.note a)
  /-- A seal. -/
  | stamp {options a : Text} (hoptions : Plain options) (h : Plain a) : Worded (.stamp options a)
  /-- An entry at a level that can be counted. -/
  | entry {level : Nat} {a : Text} (hlevel : level ≤ maxCount) (h : Plain a) :
      Worded (.entry level a)
  /-- An entry with a gloss at its end. -/
  | glossed {level : Nat} {a options c : Text} (hlevel : level ≤ maxCount) (h : Plain a)
      (hoptions : Plain options) (hc : Plain c) : Worded (.glossed level a options c)
  /-- A paragraph with options on one line, and with well-formed words. -/
  | paragraph {options : Option Text} {words : List Text}
      (hoptions : ∀ o ∈ options, ∀ b ∈ [openBracket, closeBracket, backslash, lineFeed], b ∉ o)
      (h : ∀ w ∈ words, Plain w ∧ WellFormed w) : Worded (.paragraph options words)

end Construct

/-- What a document says, one block behind the other. -/
def Document.text (doc : Document) : Text :=
  (doc.blocks.flatMap fun b => b.words ++ b.markup).flatten

/-! ## §2. Reading. -/

namespace Construct

variable {k : Construct} {t : Text}

/-- What is read from a construct, whatever stands behind it. -/
def reading : Construct → Reading
  | chapter a => .ofBlock (.chapter a)
  | styled _ a => .ofBlock (.text a 0)
  | gloss a => .ofBlock (.gloss ⟨a, 2, []⟩)
  | note a => .ofBlock (.gloss ⟨a, 4, []⟩)
  | stamp options a => .ofBlock (.stamp (Stamp.canonical options a))
  | entry level a => .ofBlock (.entry level a)
  | glossed level a _ c => .ofBlock (.entry level (a ++ c))
  | paragraph options words => Paragraph.wordsReading options words

/-- A command without blanks in its parts. -/
theorem trimmed_line {name content : Text} {options : Option Text} (hname : Solid name)
    (hoptions : ∀ o ∈ options, Plain o) (hcontent : Solid content) (ht : Solid t) :
    Trimmed (commandLine name options content t) :=
  (solid_commandLine hname (fun o ho => (hoptions o ho).solid) hcontent ht).trimmed

theorem read_gloss {base : Int} {name a : Text} (hbase : base = 2 ∨ base = 4)
    (hname : Gloss.command ⟨a, base, []⟩ = name) (hsolid : Solid name) (h : Plain a) (ht : Plain t)
    (below : List Text) :
    Line.read Catalogue.dialect (commandLine name none a t) below
      = .ofBlock (.gloss ⟨a, base, []⟩) := by
  have hargument : raisedArgument a [] = a := List.append_nil a
  have htrim : Trimmed (commandLine (Catalogue.raisedGloss base a []).command none
      (raisedArgument a []) t) := by
    rw [Catalogue.raisedGloss_nil, hargument, hname]
    exact trimmed_line hsolid (by simp) h.solid ht.solid
  have hread := Catalogue.read_glossLine hbase h (by simp) htrim below
  rwa [Catalogue.raisedGloss_nil, hargument, hname] at hread

/-- **A construct is read as if nothing stood behind it.** -/
theorem Worded.read_source (hk : k.Worded) (ht : Plain t) :
    ∃ first more, k.source t = first :: more ∧ k.reading.lines = more.length + 1
      ∧ ∀ below, Line.read Catalogue.dialect first (more ++ below) = k.reading := by
  have hbrace : ∀ {u : Text}, Plain u → closeBrace ∉ u := fun hu => hu.noMarkup _ (by decide)
  -- all but a paragraph are one line
  have line : ∀ {l : Text} {r : Reading}, r.lines = 1 →
      (∀ below, Line.read Catalogue.dialect l below = r) →
      ∃ first more, [l] = first :: more ∧ r.lines = more.length + 1
        ∧ ∀ below, Line.read Catalogue.dialect first (more ++ below) = r :=
    fun hlines hread => ⟨_, [], rfl, hlines, hread⟩
  cases hk with
  | chapter h =>
    exact line rfl (Line.read_chapterLine .catalogue h (hbrace ht)
      (trimmed_line ⟨by decide +kernel, by decide +kernel⟩ (by simp) h.solid ht.solid))
  | styled hstyle h =>
    exact line rfl (Line.read_styledLine .catalogue hstyle h
      (trimmed_line ⟨by decide +kernel, by decide +kernel⟩ (by simpa using hstyle) h.solid
        ht.solid))
  | gloss h =>
    exact line rfl
      (read_gloss (Or.inl rfl) rfl ⟨by decide +kernel, by decide +kernel⟩ h ht)
  | note h =>
    exact line rfl
      (read_gloss (Or.inr rfl) rfl ⟨by decide +kernel, by decide +kernel⟩ h ht)
  | stamp hoptions h => exact line rfl (Stamp.read_line .catalogue hoptions h ht.solid)
  | @entry level a hlevel h =>
    refine line rfl fun below => ?_
    rw [Line.read_entryLine .catalogue hlevel h.nonempty (hbrace ht)
      (trimmed_line ⟨by decide +kernel, by decide +kernel⟩ (by simpa using plain_natDecimal level)
        h.solid ht.solid), h.clean_eq, Line.flatten_plain h]
    rfl
  | @glossed level a options c hlevel h hoptions hc =>
    refine line rfl fun below => ?_
    rw [Line.read_entryLine .catalogue hlevel
      (commandLine_ne_nil (List.append_ne_nil_of_left_ne_nil h.nonempty _)) List.not_mem_nil
      (Line.trimmed_commandLine rfl), Line.flatten_clean_gloss h hoptions hc ht]
    rfl
  | @paragraph options words hoptions h =>
    have hclean : clean words.flatten = words.flatten := by
      refine clean_eq_self (MadeOf.not_infix_of_mem_marks (MadeOf.flatten fun w hw => ?_))
      exact .of_noMarks (h w hw).2 (h w hw).1.noMark
    have hbracket : ∀ o ∈ options, brackets.Passes o := fun o ho =>
      .of_not_mem (hoptions o ho _ (by decide)) (hoptions o ho _ (by decide))
    refine ⟨_, words ++ [Paragraph.closing ++ t], rfl, ?_, fun below => ?_⟩
    · rw [List.length_append]
      rfl
    · rw [List.append_assoc]
      exact Paragraph.read_environment .catalogue hbracket (fun w hw => (h w hw).1) hclean t below

/-! ## §3. Lines of a body. -/

/-- A text that is on one line and starts no mark of an end. -/
def Inside (l : Text) : Prop := lineFeed ∉ l ∧ ¬ endOpening <:+: l

/-- Plain words stand on one line and close no environment. -/
theorem inside_of_plain (h : Plain t) : Inside t :=
  ⟨h.lineFeed_not_mem, not_infix_of_not_mem h.backslash_not_mem⟩

/-- Nor does a command with such words in it and behind it. -/
theorem inside_commandLine {name content : Text} {options : Option Text} (hname : Inside name)
    (hoptions : ∀ o ∈ options, Plain o) (hcontent : Inside content) (ht : Inside t) :
    Inside (commandLine name options content t) :=
  ⟨not_mem_commandLine (by decide) hname.1 (fun o ho => (hoptions o ho).lineFeed_not_mem)
      hcontent.1 ht.1,
    not_infix_commandLine (by decide +kernel) hname.2
      (fun o ho => (inside_of_plain (hoptions o ho)).2) hcontent.2 ht.2⟩

/-- The one line that starts like a mark of an end. -/
theorem noEnd_closing (ht : Plain t) :
    ∀ m ∈ documentEnd :: bodyEnds, ¬ m <:+: Paragraph.closing ++ t := by
  have hother : ∀ m ∈ documentEnd :: bodyEnds,
      ¬ m <+: Paragraph.closing ∧ ¬ Paragraph.closing <+: m := by decide +kernel
  have hrest : backslash ∉ Paragraph.closing.tail ++ t := by
    rw [List.mem_append, not_or]
    exact ⟨by decide +kernel, ht.backslash_not_mem⟩
  exact not_infix_command hother hrest

/-- **The lines of a construct can stand in a body.** -/
theorem Worded.line (hk : k.Worded) (ht : Plain t) : ∀ l ∈ k.source t,
    lineFeed ∉ l ∧ ∀ m ∈ documentEnd :: bodyEnds, ¬ m <:+: l := by
  have inside : ∀ {l : Text}, Inside l →
      lineFeed ∉ l ∧ ∀ m ∈ documentEnd :: bodyEnds, ¬ m <:+: l :=
    fun h => ⟨h.1, noEnd_of_not_infix h.2⟩
  have command : ∀ {name content u : Text} {options : Option Text}, Inside name →
      (∀ o ∈ options, Plain o) → Inside content → Inside u →
      ∀ l ∈ [commandLine name options content u],
        lineFeed ∉ l ∧ ∀ m ∈ documentEnd :: bodyEnds, ¬ m <:+: l := by
    intro name content u options hname hoptions hcontent hu l hl
    rw [List.mem_singleton.1 hl]
    exact inside (inside_commandLine hname hoptions hcontent hu)
  have hbehind := inside_of_plain ht
  cases hk with
  | chapter h =>
    exact command ⟨by decide, by decide +kernel⟩ (by simp) (inside_of_plain h) hbehind
  | styled hstyle h =>
    exact command ⟨by decide, by decide +kernel⟩ (by simpa using hstyle) (inside_of_plain h) hbehind
  | gloss h =>
    exact command ⟨by decide, by decide +kernel⟩ (by simp) (inside_of_plain h) hbehind
  | note h =>
    exact command ⟨by decide, by decide +kernel⟩ (by simp) (inside_of_plain h) hbehind
  | stamp hoptions h =>
    exact command ⟨by decide, by decide +kernel⟩ (by simpa using hoptions) (inside_of_plain h)
      hbehind
  | @entry level a hlevel h =>
    exact command ⟨by decide, by decide +kernel⟩ (by simpa using plain_natDecimal level)
      (inside_of_plain h) hbehind
  | @glossed level a options c hlevel h hoptions hc =>
    have hname : Inside (a ++ Entry.innerGloss) := by
      refine ⟨?_, fun hin => ?_⟩
      · rw [List.mem_append, not_or]
        exact ⟨h.lineFeed_not_mem, by decide⟩
      · exact absurd (infix_of_infix_append h.backslash_not_mem hin) (by decide +kernel)
    exact command ⟨by decide, by decide +kernel⟩ (by simpa using plain_natDecimal level)
      (inside_commandLine hname (by simpa using hoptions) (inside_of_plain hc) hbehind)
      ⟨List.not_mem_nil, by decide⟩
  | @paragraph options words hoptions h =>
    intro l hl
    rcases List.mem_cons.1 hl with rfl | hl
    · cases options with
      | none => exact inside ⟨by decide, by decide +kernel⟩
      | some o =>
        exact inside ⟨lineFeed_not_mem_option (by decide) (hoptions o rfl _ (by decide)),
          not_infix_option (by decide +kernel) (hoptions o rfl _ (by decide))⟩
    rcases List.mem_append.1 hl with hl | hl
    · exact inside (inside_of_plain (h l hl).1)
    · rw [List.mem_singleton.1 hl]
      refine ⟨?_, noEnd_closing ht⟩
      rw [List.mem_append, not_or]
      exact ⟨by decide, ht.lineFeed_not_mem⟩

/-! ## §4. Documents. -/

/-- The words of a construct stand in what is read from it, in their order. -/
theorem Worded.inOrder_words (hk : k.Worded) :
    InOrder k.words (Document.bare k.reading).text := by
  have flat : ∀ {ws : List Text} {t : Text}, t = ws.flatten → InOrder ws t := by
    rintro ws t rfl
    exact inOrder_flatten ws
  cases hk with
  | chapter h => exact flat rfl
  | styled hstyle h => exact flat rfl
  | gloss h => exact flat rfl
  | note h => exact flat rfl
  | @stamp options a hoptions h =>
    have hin : a <:+: Stamp.canonical options a :=
      ⟨Stamp.stampCommand ++ option options ++ [openBrace], [closeBrace], by
        simp [Stamp.canonical, group]⟩
    exact InOrder.cons hin (show InOrder [] [] from trivial)
  | entry hlevel h => exact flat rfl
  | @glossed level a options c hlevel h hoptions hc =>
    refine flat ?_
    show a ++ c ++ [] = a ++ (c ++ [])
    rw [List.append_assoc]
  | @paragraph options words hoptions h =>
    refine flat ?_
    -- a paragraph without words is no block
    show ((if words.flatten = [] then [] else [Block.paragraph _]).flatMap
      fun b => b.words ++ b.markup).flatten = words.flatten
    split
    · next hnone =>
      rw [hnone]
      rfl
    · exact List.append_nil words.flatten

end Construct

/-- **Words behind a construct do no harm to it.** A document of a construct with
words behind what closes it can be read, leaves nothing open or unknown, and
says the construct's own words in their order.  A heading, a gloss, a note, an
entry, also one with a gloss inside, and a paragraph end where they are closed:
there are no blocks but theirs. -/
theorem Document.ofText_construct {k : Construct} {t : Text} (hk : k.Worded) (ht : Plain t) :
    ∃ doc, Document.ofText Catalogue.dialect (inDocument (joinLines (k.source t))) = .ok doc
      ∧ doc.unbalanced = 0 ∧ doc.unrecognized = 0
      ∧ InOrder k.words doc.text
      ∧ ∀ blocks, k.blocks? = some blocks → doc.blocks = blocks := by
  have hlines := hk.line ht
  have hdoc := Document.ofText_joinLines .catalogue (fun l hl => (hlines l hl).1)
    fun l hl => (hlines l hl).2
  obtain ⟨first, more, hsource, htaken, hread⟩ := hk.read_source ht
  rw [hsource, readLines_of_read (hread [[]]) htaken, ← hsource] at hdoc
  refine ⟨_, hdoc, ?_, ?_, hk.inOrder_words, ?_⟩
  · cases k <;> rfl
  · cases k <;> rfl
  · intro blocks hblocks
    cases k <;> cases hblocks <;> rfl

/-- An entry that ends with a gloss loses the words behind the gloss, and keeps its own. -/
theorem blocks_of_glossed :
    ∃ doc, Document.ofText Catalogue.dialect (inDocument (joinLines
        ((Construct.glossed 1 (utf8 "甲") (utf8 "丁") (utf8 "丙")).source (utf8 "乙")))) = .ok doc
      ∧ doc.blocks = [.entry 1 (utf8 "甲" ++ utf8 "丙")] := by
  have hplain : ∀ s ∈ ["甲", "乙", "丙", "丁"], Plain (utf8 s) := by
    intro s hs
    simp only [List.mem_cons, List.not_mem_nil, or_false] at hs
    rcases hs with rfl | rfl | rfl | rfl <;> exact plain_utf8 (by decide) (by decide +kernel)
  have hk : (Construct.glossed 1 (utf8 "甲") (utf8 "丁") (utf8 "丙")).Worded :=
    .glossed (by decide) (hplain "甲" (by simp)) (hplain "丁" (by simp)) (hplain "丙" (by simp))
  obtain ⟨doc, hdoc, -, -, -, hblocks⟩ := Document.ofText_construct hk (hplain "乙" (by simp))
  exact ⟨doc, hdoc, hblocks _ rfl⟩

/-- That a document of a construct says all words of its lines: those of the
construct and those behind it. -/
def Construct.KeepsAll (k : Construct) (t : Text) : Prop :=
  ∃ doc, Document.ofText Catalogue.dialect (inDocument (joinLines (k.source t))) = .ok doc
    ∧ InOrder (k.words ++ [t]) doc.text

/-- Words behind a heading are on no block. -/
theorem not_keepsAll_chapter :
    (Construct.chapter (utf8 "甲")).Worded ∧ Plain (utf8 "乙")
      ∧ ¬ (Construct.chapter (utf8 "甲")).KeepsAll (utf8 "乙") := by
  refine ⟨.chapter (plain_utf8 (by decide) (by decide +kernel)),
    plain_utf8 (by decide) (by decide +kernel), ?_⟩
  rintro ⟨doc, hdoc, horder⟩
  have hread : Document.ofText Catalogue.dialect
      (inDocument (joinLines ((Construct.chapter (utf8 "甲")).source (utf8 "乙"))))
      = .ok (.bare (.ofBlock (.chapter (utf8 "甲")))) := by decide +kernel
  rw [hread] at hdoc
  cases hdoc
  have hnone : ¬ utf8 "乙" <:+: (Document.bare (.ofBlock (.chapter (utf8 "甲")))).text := by
    decide +kernel
  exact hnone (horder.infix_of_mem _ (List.mem_append_right _ (List.mem_singleton_self _)))

end FolioGrid
