/-
  FolioGrid.Proofs.Document.Characters
  ────────────────────────────────
  **NO CHARACTER IS CUT, AND NO PUNCTUATION STAYS.**

  A well-formed content falls into well-formed parts, its lines into well-formed
  blocks without punctuation, these into columns of the same kind, and what is
  written is well formed again.  The readers, the layout and the writer each
  bring one lemma; two results are put together from them:

      wellFormed_of_convert  — all texts of a conversion are well formed
      not_infix_of_ofText    — no mark occurs in the words of blocks and columns
-/
import FolioGrid.Proofs.Dialect.Characters
import FolioGrid.Proofs.GridMarkup.Characters
import FolioGrid.Proofs.GridMarkup.Marks

namespace FolioGrid

open FolioGrid.Text FolioGrid.Markup

variable {content : Text}

/-! ## §1. Parts. -/

/-- Cuts at the marks of a body fall between characters. -/
theorem wellFormed_of_mem_bodyMarks :
    ∀ m ∈ bodyBegins ++ bodyEnds, WellFormed m ∧ m ≠ [] := by
  intro m hm
  simp only [bodyBegins, bodyEnds, List.cons_append, List.nil_append, List.mem_cons,
    List.not_mem_nil, or_false] at hm
  rcases hm with rfl | rfl | rfl | rfl
  · exact ⟨wellFormed_beginMark _, List.cons_ne_nil _ _⟩
  · exact ⟨wellFormed_beginMark _, List.cons_ne_nil _ _⟩
  · exact ⟨wellFormed_endMark _, List.cons_ne_nil _ _⟩
  · exact ⟨wellFormed_endMark _, List.cons_ne_nil _ _⟩

/-- So both parts are well formed where a body is cut off, -/
theorem wellFormed_splitBody {t : Text} (h : WellFormed t) :
    WellFormed (splitBody t).1 ∧ WellFormed (splitBody t).2 := by
  unfold splitBody
  split
  · next c hc =>
    obtain ⟨hbefore, hfound, hafter⟩ := h.of_cutAny? hc
      fun m hm => wellFormed_of_mem_bodyMarks m (List.mem_append_left _ hm)
    exact ⟨hbefore, hfound.append hafter⟩
  · exact ⟨.nil, h⟩

/-- and what is left where a mark is erased. -/
theorem wellFormed_eraseMark {marks : List Text} {t : Text}
    (hmarks : ∀ m ∈ marks, WellFormed m ∧ m ≠ []) (h : WellFormed t) :
    WellFormed (eraseMark marks t) := by
  unfold eraseMark
  split
  · next c hc =>
    obtain ⟨hbefore, -, hafter⟩ := h.of_cutAny? hc hmarks
    exact hbefore.append (hafter.span_of_ascii fun _ => ascii_of_isSpace).2
  · exact h

/-- What is left of a text without as much of it as another head is long. -/
theorem wellFormed_drop {t u v x : Text} (hu : WellFormed u) (hx : WellFormed x)
    (h : u ++ v = x ++ t) : WellFormed (x.drop u.length) := by
  rcases List.append_eq_append_iff.1 h with ⟨z, hxz, -⟩ | ⟨z, huz, -⟩
  · rw [hxz, List.drop_left]
    rw [hxz] at hx
    exact (hx.split_left hu).2
  · rw [List.drop_eq_nil_of_le (by rw [huz, List.length_append]; omega)]
    exact .nil

/-- **The parts of a well-formed content are well formed.** -/
theorem Parts.wellFormed {parts : Parts} (hcontent : WellFormed content)
    (h : Parts.ofText content = .ok parts) :
    WellFormed parts.preamble ∧ WellFormed parts.preserved ∧ WellFormed parts.body
      ∧ WellFormed parts.footer := by
  unfold Parts.ofText at h
  split at h
  · next b e hb he =>
    split at h
    · cases h
    cases h
    have hfound : WellFormed b.found := by
      rw [found_of_cut? hb]
      exact wellFormed_beginMark _
    have hend : WellFormed e.found := by
      rw [found_of_cut? he]
      exact wellFormed_endMark _
    obtain ⟨hbefore, -⟩ := hcontent.of_cut? hb (wellFormed_beginMark _) (by decide)
    obtain ⟨habove, hafter⟩ := hcontent.of_cut? he (wellFormed_endMark _) (by decide)
    have hpreamble := hbefore.append hfound
    -- the preamble and what stands in front of the end are two heads of the content
    have hheads : b.before ++ b.found ++ b.after = e.before ++ (e.found ++ e.after) := by
      rw [append_of_cutAny? hb, ← List.append_assoc, append_of_cutAny? he]
    have hinner := wellFormed_splitBody (wellFormed_drop hpreamble habove hheads)
    exact ⟨hpreamble, hinner.1, hinner.2, hend.append hafter⟩
  · cases h

/-- **The lines of a body are well formed.** -/
theorem wellFormed_of_mem_bodyLines {body : Text} (h : WellFormed body) :
    ∀ l ∈ bodyLines body, WellFormed l := by
  refine MadeOf.of_mem_lines (wellFormed_eraseMark ?_ (wellFormed_eraseMark ?_ h))
  · exact fun m hm => wellFormed_of_mem_bodyMarks m (List.mem_append_right _ hm)
  · exact fun m hm => wellFormed_of_mem_bodyMarks m (List.mem_append_left _ hm)

/-! ## §2. Documents. -/

/-- **The blocks of a document say well-formed words**, and but for seals no mark of
punctuation. -/
theorem Document.says_of_mem_blocks {d : Dialect} (hd : d.BuiltIn) {doc : Document}
    (hcontent : WellFormed content) (h : Document.ofText d content = .ok doc) :
    ∀ b ∈ doc.blocks, b.Says Unpunctuated WellFormed := by
  obtain ⟨parts, hparts, rfl⟩ := Document.ofText_eq_ok_iff.1 h
  have hbody := (Parts.wellFormed hcontent hparts).2.2.1
  intro b hb
  have hread : b ∈ d.finish (readLines d (bodyLines parts.body)).blocks := hb
  rw [hd.finish_eq] at hread
  exact says_of_mem_readLines hd (wellFormed_of_mem_bodyLines hbody) b hread

/-- **The strip of punctuation is total.** Of a well-formed content that can be
read in a dialect that has a name, no word holds a punctuation mark: not those
of the blocks, and not those of the columns, at any width. -/
theorem not_infix_of_ofText {name : Text} {d : Dialect} {doc : Document}
    (hd : Dialect.named name = .ok d) (hcontent : WellFormed content)
    (hdoc : Document.ofText d content = .ok doc) :
    (∀ b ∈ doc.blocks, ∀ t ∈ b.words, ∀ m ∈ marks, ¬ m <:+: t)
      ∧ ∀ s columns, layout s doc.blocks = .ok columns →
        ∀ c ∈ columns, ∀ t ∈ c.words, ∀ m ∈ marks, ¬ m <:+: t := by
  have hblocks := Document.says_of_mem_blocks (Dialect.builtIn_of_named hd) hcontent hdoc
  constructor
  · intro b hb t ht
    exact ((hblocks b hb).words t ht).not_infix_of_mem_marks
  · intro s columns hcolumns c hc t ht
    exact ((says_of_mem_layout hblocks hcolumns c hc).words t ht).not_infix_of_mem_marks

/-- A catalogue page with punctuation in a heading, in an entry with a gloss
inside, and in a gloss that raises words. -/
def punctuatedPage : Text :=
  utf8 ("\\begin\x7bdocument\x7d\n\\begin\x7b正文\x7d\n\\chapter\x7b《經》部\x7d\n"
    ++ "\\条目[1]\x7b周，易\\夹注[x]\x7b十，卷\x7d\x7d\n"
    ++ "\\注\x7b宋、\\相对抬头[1]\x7b太。祖\x7d撰\x7d\n\\end\x7b正文\x7d\n\\end\x7bdocument\x7d")

/-- What it says. -/
def punctuatedPageRead : Document where
  preamble := documentBegin
  preserved := [lineFeed]
  blocks :=
    [.chapter (utf8 "經部"), .entry 1 (utf8 "周易十卷"),
      .gloss ⟨utf8 "宋太祖撰", 2,
        [⟨utf8 "宋", 0, false⟩, ⟨utf8 "太祖", -1, true⟩, ⟨utf8 "撰", -1, false⟩]⟩]
  footer := documentEnd
  unbalanced := 0
  unrecognized := 0
  notices := []

/-- Where it stands, four characters to a column. -/
def punctuatedPageColumns : List Column :=
  [.chapter (utf8 "經部"), .single (utf8 "周易十卷") 1,
    .dual
      { indent := 2
        right := utf8 "宋"
        left := utf8 "太祖撰"
        leftIndent := some 1 }]

theorem ofText_punctuatedPage :
    Document.ofText Catalogue.dialect punctuatedPage = .ok punctuatedPageRead := by
  decide +kernel

theorem layout_punctuatedPage :
    layout { Settings.standard with width := 4 } punctuatedPageRead.blocks
      = .ok punctuatedPageColumns := by
  decide +kernel

/-- No column of the page shows a mark. -/
theorem punctuation_of_punctuatedPage :
    layout { Settings.standard with width := 4 } punctuatedPageRead.blocks
        = .ok punctuatedPageColumns
      ∧ ∀ c ∈ punctuatedPageColumns, ∀ t ∈ c.words, ∀ m ∈ marks, ¬ m <:+: t := by
  obtain ⟨-, hmarks⟩ :=
    not_infix_of_ofText (rfl : Dialect.named (utf8 "siku-mulu") = .ok Catalogue.dialect)
      (wellFormed_utf8 _) ofText_punctuatedPage
  exact ⟨layout_punctuatedPage, hmarks _ _ layout_punctuatedPage⟩

/-! ## §3. Conversions. -/

/-- **No character is cut.** If a well-formed content is converted in a dialect
that has a name, at any width, the texts of its blocks and of its columns are
well formed, and so is the output. -/
theorem wellFormed_of_convert {name : Text} {d : Dialect} {width : Int} {r : Conversion}
    (hd : Dialect.named name = .ok d) (hcontent : WellFormed content)
    (h : (convert { Settings.standard with width := width } d content).value = .ok r) :
    ∃ doc columns, Document.ofText d content = .ok doc
      ∧ layout { Settings.standard with width := width } doc.blocks = .ok columns
      ∧ (∀ b ∈ doc.blocks, ∀ t ∈ b.words ++ b.markup, WellFormed t)
      ∧ (∀ c ∈ columns, ∀ t ∈ c.words ++ c.markup, WellFormed t)
      ∧ WellFormed r.output := by
  obtain ⟨parts, columns, hparts, hcolumns, houtput⟩ := output_of_convert h
  have hbuiltIn := Dialect.builtIn_of_named hd
  have hdoc : Document.ofText d content = .ok (parts.read d) :=
    Document.ofText_eq_ok_iff.2 ⟨parts, hparts, rfl⟩
  -- for well-formedness, every character will do
  have hblocks : ∀ b ∈ (parts.read d).blocks, b.Says (fun _ => True) WellFormed := by
    intro b hb
    have hblock := Document.says_of_mem_blocks hbuiltIn hcontent hdoc b hb
    exact ⟨fun t ht => (hblock.words t ht).wellFormed, hblock.markup⟩
  have hgrid := says_of_mem_layout hblocks hcolumns
  refine ⟨parts.read d, columns, hdoc, hcolumns, ?_, ?_, ?_⟩
  · intro b hb t ht
    rcases List.mem_append.1 ht with ht | ht
    · exact (hblocks b hb).words t ht
    · exact (hblocks b hb).markup t ht
  · intro c hc t ht
    rcases List.mem_append.1 ht with ht | ht
    · exact (hgrid c hc).words t ht
    · exact (hgrid c hc).markup t ht
  · obtain ⟨hpreamble, hpreserved, -, hfooter⟩ := Parts.wellFormed hcontent hparts
    have hnames := GridMarkup.wellFormed_of_mem_templateNames
      (rfl : { Settings.standard with width := width }.templates = standardTemplates) hbuiltIn
    rw [houtput]
    exact GridMarkup.wellFormed_document hnames hpreamble hpreserved hgrid hfooter

/-- The page as it is written. -/
def punctuatedPageOnGrid : Conversion where
  output :=
    utf8 ("\\begin\x7bdocument\x7d\n\n\\chapter\x7b經部\x7d\n\\begin\x7b数字化内容\x7d\n"
      ++ "\\缩进[1] 周易十卷\n"
      ++ "\\缩进[2]\\双列\x7b\\右小列\x7b宋\x7d\\左小列[indent=1]\x7b太祖撰\x7d\x7d\n"
      ++ "\n\\end\x7b数字化内容\x7d\n\\end\x7bdocument\x7d\n")
  blocks := 3
  columns := 3
  counts := [(.chapter, 1), (.gloss, 1), (.entry, 1)]
  warnings := []

theorem wellFormed_punctuatedPageOnGrid : WellFormed punctuatedPageOnGrid.output := by
  have hconvert : (convert { Settings.standard with width := 4 } Catalogue.dialect
      punctuatedPage).value = .ok punctuatedPageOnGrid := by
    unfold convert Document.convert
    simp only [ofText_punctuatedPage, layout_punctuatedPage]
    decide +kernel
  obtain ⟨doc, columns, -, -, -, -, houtput⟩ :=
    wellFormed_of_convert (rfl : Dialect.named (utf8 "siku-mulu") = .ok Catalogue.dialect)
      (wellFormed_utf8 _) hconvert
  exact houtput

end FolioGrid
