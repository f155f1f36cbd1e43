/-
  FolioGrid.Proofs.Document.Fraying
  ────────────────────────────────
  **WORDS WITH A BLANK AT THEIR ENDS.**

  The words of texts, paragraphs and glosses are never empty, but they can have a
  blank at an end, and even be nothing but blank.  They come from passages of the
  source (`Line.Passage`), which are trimmed, but for what a line in a style wraps;
  then their punctuation is removed, and what stood between it and the words
  remains.  Which passages leave a blank is known exactly:
  `Document.running_of_ofText`.
-/
import FolioGrid.Proofs.Dialect.Balance
import FolioGrid.Proofs.Dialect.Breaks
import FolioGrid.Proofs.Dialect.Indents
import FolioGrid.Proofs.Dialect.Tokens
import FolioGrid.Proofs.Document.Characters
import FolioGrid.Proofs.Document.Sequence
import FolioGrid.Proofs.Text.Fraying

namespace FolioGrid

open FolioGrid.Text FolioGrid.Markup

variable {d : Dialect} {line t u : Text} {ls : List Text}

/-! ## §1. Running words. -/

/-- The words of a block that run on over columns: those of a text, of a paragraph, and
of a gloss with its segments. -/
def Block.running : Block → List Text
  | .text t _ => [t]
  | .paragraph p => [p.text]
  | .gloss a => a.text :: a.segments.map (·.text)
  | _ => []

/-- The segments of a gloss as they are said, with their punctuation. -/
def Catalogue.saidSegments (command : Text) (indent : Int) (unwrap : Bool) (lines : List Text) :
    List Segment :=
  let content := (collect command lines).content
  (Elevation.expand (if unwrap then unwrapStyles content else content) indent).value

/-- The passages from which a line takes running words, where it is the first of some
lines and is given as it is read. -/
inductive Line.Passage (d : Dialect) (line : Text) (ls : List Text) : Text → Prop where
  /-- The line. -/
  | whole : Passage d line ls line
  /-- What a style wraps. -/
  | styled {arguments : Text} {style body : Argument}
      (harguments : after? styleCommand line = some arguments)
      (hstyle : optionalArgument? arguments = some style)
      (hbody : braceArgument? style.rest = some body) (hclosed : body.closed = true) :
      Passage d line ls body.content
  /-- The lines of a paragraph, up to their comments. -/
  | paragraph {rest : Text} (h : after? Paragraph.opening line = some rest) :
      Passage d line ls
        ((Paragraph.enclosed (skipOption rest :: ls.drop 1)).inner.flatMap Paragraph.lineText)
  /-- All segments of a gloss. -/
  | gloss {name : String} {indent : Int} {unwrap : Bool}
      (h : d.readCommand (commandName line) line ls
        = some (Catalogue.readGloss (command name) indent unwrap ls)) :
      Passage d line ls ((Catalogue.saidSegments (command name) indent unwrap ls).flatMap (·.text))
  /-- One of them. -/
  | segment {name : String} {indent : Int} {unwrap : Bool} {s : Segment}
      (h : d.readCommand (commandName line) line ls
        = some (Catalogue.readGloss (command name) indent unwrap ls))
      (hs : s ∈ Catalogue.saidSegments (command name) indent unwrap ls) : Passage d line ls s.text

/-! ## §2. Glosses. -/

namespace Catalogue

variable {name : String} {indent : Int} {unwrap : Bool} {s : Segment}

theorem wellFormed_of_mem_saidSegments (hls : ∀ l ∈ ls, WellFormed l)
    (h : s ∈ saidSegments (Markup.command name) indent unwrap ls) : WellFormed s.text := by
  refine Elevation.wellFormed_of_mem_expand ?_ indent s h
  have hcontent := (wellFormed_collect name hls).2
  cases unwrap with
  | true => exact wellFormed_unwrapStyles hcontent
  | false => exact hcontent

/-- A segment is trimmed when it is said. -/
theorem trim_of_mem_saidSegments {command : Text} (h : s ∈ saidSegments command indent unwrap ls) :
    trim s.text = s.text := by
  have hshown : ∀ (e : Elevation.Event) (words : Text), e.shown? = some words →
      trim words = words := by
    intro e words hwords
    cases e with
    | run t =>
      obtain ⟨rfl, -⟩ := Elevation.shownWords?_eq_some_iff.1 hwords
      exact trim_trim t
    | raise level t =>
      obtain ⟨rfl, -⟩ := Elevation.shownWords?_eq_some_iff.1 hwords
      exact trim_trim t
    | dynasty =>
      cases hwords
      decide +kernel
    | lineBreak => cases hwords
    | move place => cases hwords
  have hmem : s.text ∈ (saidSegments command indent unwrap ls).map (·.text) :=
    List.mem_map_of_mem h
  unfold saidSegments Elevation.expand at hmem
  dsimp only at hmem
  rw [Elevation.map_text_segmentsFrom] at hmem
  obtain ⟨e, -, he⟩ := List.mem_filterMap.1 hmem
  exact hshown e s.text he

/-- **Cleaning segments one by one** cleans what they say together. -/
theorem text_cleanSegments {carried : Bool} {segments : List Segment}
    (h : ∀ s ∈ segments, WellFormed s.text) :
    (cleanSegments carried segments).flatMap (·.text) = clean (segments.flatMap (·.text)) := by
  induction segments generalizing carried with
  | nil => exact (clean_encode []).symm
  | cons s rest ih =>
    rw [List.forall_mem_cons] at h
    rw [List.flatMap_cons, clean_append h.1 (MadeOf.flatMap h.2)]
    unfold cleanSegments
    split
    · next hnone => rw [hnone, ih h.2, List.nil_append]
    · rw [List.flatMap_cons, ih h.2]

/-- The words of a gloss come from its segments, and there are some. -/
theorem exists_passage_of_mem_readGloss {b : Block} (hls : ∀ l ∈ ls, WellFormed l)
    (hread : d.readCommand (commandName line) line ls
      = some (readGloss (Markup.command name) indent unwrap ls))
    (hb : b ∈ (readGloss (Markup.command name) indent unwrap ls).blocks) (ht : t ∈ b.running) :
    t ≠ [] ∧ ∃ u, Line.Passage d line ls u ∧ t = clean u := by
  obtain ⟨a, ha, rfl⟩ := List.mem_map.1 (show b ∈ List.map _ _ from hb)
  have hgloss : gloss? indent (readSegments (Markup.command name) indent unwrap ls) = some a :=
    Option.mem_toList.1 ha
  have hwords : ∀ s ∈ readSegments (Markup.command name) indent unwrap ls, s.text ≠ [] :=
    fun s hs => text_ne_nil_of_mem_cleanSegments hs
  rcases List.mem_cons.1 ht with rfl | ht
  · have htext := text_of_gloss? hgloss
    constructor
    · intro hnil
      cases hkept : readSegments (Markup.command name) indent unwrap ls with
      | nil =>
        rw [gloss?_eq_none_iff.2 hkept] at hgloss
        cases hgloss
      | cons s rest =>
        rw [hnil, hkept, List.flatMap_cons] at htext
        exact hwords s (hkept ▸ List.mem_cons_self) (List.append_eq_nil_iff.1 htext.symm).1
    · refine ⟨_, .gloss hread, htext.trans ?_⟩
      exact text_cleanSegments fun s hs => wellFormed_of_mem_saidSegments hls hs
  · obtain ⟨s, hs, rfl⟩ := List.mem_map.1 ht
    obtain ⟨s', hs', heq, hne, -⟩ := exists_of_mem_cleanSegments ((eq_of_gloss? hgloss).2 hs)
    exact ⟨hne, _, .segment hread hs', heq⟩

end Catalogue

/-! ## §3. Lines. -/

namespace Line

theorem Passage.wellFormed (hline : WellFormed line) (hls : ∀ l ∈ ls, WellFormed l)
    (h : Passage d line ls u) : WellFormed u := by
  cases h with
  | whole => exact hline
  | styled harguments hstyle hbody _ =>
    have hrest := (hline.of_after? harguments (wellFormed_command _)).of_optionalArgument? hstyle
    exact (hrest.2.of_braceArgument? hbody).1
  | paragraph h =>
    refine MadeOf.flatMap fun l hl =>
      Paragraph.wellFormed_lineText (Paragraph.wellFormed_enclosed ?_ l hl)
    refine List.forall_mem_cons.2 ⟨(hline.of_after? h (wellFormed_beginMark _)).skipOption, ?_⟩
    exact fun k hk => hls k (List.mem_of_mem_drop hk)
  | gloss h => exact MadeOf.flatMap fun s hs => Catalogue.wellFormed_of_mem_saidSegments hls hs
  | segment h hs => exact Catalogue.wellFormed_of_mem_saidSegments hls hs

/-- What a line adds to a paragraph is trimmed. -/
theorem trim_lineText (l : Text) : trim (Paragraph.lineText l) = Paragraph.lineText l := by
  obtain ⟨v, hv, -⟩ := Paragraph.exists_beforeComment false (trim l)
  exact trim_trimRight_of_prefix (trim_trim l) ⟨v, hv⟩

/-- **Passages are trimmed**, but for what a style wraps. -/
theorem Passage.trim_eq_or (hline : WellFormed line) (hls : ∀ l ∈ ls, WellFormed l)
    (htrim : trim line = line) (h : Passage d line ls u) :
    trim u = u ∨ styleCommand <+: line := by
  cases h with
  | whole => exact Or.inl htrim
  | styled harguments _ _ _ =>
    rw [after?_eq_some_iff] at harguments
    exact Or.inr ⟨_, harguments.symm⟩
  | paragraph h =>
    have hrest := (hline.of_after? h (wellFormed_beginMark _)).skipOption
    refine Or.inl (trim_flatMap_eq fun l hl => ⟨?_, trim_lineText l⟩)
    refine Paragraph.wellFormed_lineText (Paragraph.wellFormed_enclosed ?_ l hl)
    exact List.forall_mem_cons.2 ⟨hrest, fun k hk => hls k (List.mem_of_mem_drop hk)⟩
  | gloss h =>
    refine Or.inl (trim_flatMap_eq fun s hs => ⟨?_, ?_⟩)
    · exact Catalogue.wellFormed_of_mem_saidSegments hls hs
    · exact Catalogue.trim_of_mem_saidSegments hs
  | segment h hs => exact Or.inl (Catalogue.trim_of_mem_saidSegments hs)

/-- **Running words come from a passage of their line**, and there are some. -/
theorem Gives.exists_passage (hd : d.BuiltIn) (hls : ∀ l ∈ ls, WellFormed l) {b : Block}
    (h : Gives d line ls b) (ht : t ∈ b.running) :
    t ≠ [] ∧ ∃ u, Passage d line ls u ∧ t = clean u := by
  cases h with
  | chapter h => cases ht
  | newPage h => cases ht
  | stamp h => cases ht
  | paragraph h hb =>
    have hblock := show b ∈ (if _ then [] else [Block.paragraph _]) from hb
    split at hblock
    · cases hblock
    · next hwords =>
      rw [List.mem_singleton.1 hblock] at ht
      rw [List.mem_singleton.1 ht]
      exact ⟨hwords, _, .paragraph h, rfl⟩
  | entry h =>
    obtain ⟨level, words, rfl⟩ := exists_entry_of_ofLine? h
    cases ht
  | plain words =>
    rw [List.mem_singleton.1 ht]
    exact ⟨words, _, .whole, rfl⟩
  | styled h words =>
    rw [List.mem_singleton.1 ht]
    refine ⟨words, ?_⟩
    obtain ⟨arguments, harguments, h⟩ := Option.bind_eq_some_iff.1 h
    obtain ⟨style, hstyle, h⟩ := Option.bind_eq_some_iff.1 h
    obtain ⟨body, hbody, h⟩ := Option.bind_eq_some_iff.1 h
    obtain ⟨body', hbody, hclosed⟩ := Option.bind_eq_some_iff.1 hbody
    obtain rfl := Argument.eq_of_ifClosed hclosed
    exact ⟨_, .styled harguments hstyle hbody (Argument.closed_of_ifClosed hclosed),
      (Option.some.inj h).symm⟩
  | command h hb =>
    cases hd with
    | plain => cases h
    | catalogue =>
      rcases Catalogue.eq_of_readCommand h with ⟨-, rfl⟩ | ⟨-, rfl⟩
      · exact Catalogue.exists_passage_of_mem_readGloss hls h hb ht
      · exact Catalogue.exists_passage_of_mem_readGloss hls h hb ht

end Line

/-! ## §4. Documents. -/

/-- **Which words have a blank at an end.** Take any words of a text, a paragraph, a gloss
or one of its segments that a well-formed content gives in a dialect that has a name.
They are not empty.  They are a passage of one of the lines of the body without its
punctuation; the passage is trimmed, unless the line starts with a style; and the
words are trimmed exactly if it is not frayed. -/
theorem Document.running_of_ofText {name content : Text} {doc : Document}
    (hd : Dialect.named name = .ok d) (hcontent : WellFormed content)
    (hdoc : Document.ofText d content = .ok doc) :
    ∃ parts, Parts.ofText content = .ok parts
      ∧ ∀ b ∈ doc.blocks, ∀ t ∈ b.running, t ≠ []
        ∧ ∃ first rest u, first :: rest <:+ bodyLines parts.body
          ∧ Line.Passage d (trim first) (first :: rest) u
          ∧ (trim u = u ∨ styleCommand <+: trim first)
          ∧ t = clean u
          ∧ (trim t = t ↔ ¬ Frayed u) := by
  have hbuiltIn := Dialect.builtIn_of_named hd
  obtain ⟨parts, hparts, rfl⟩ := Document.ofText_eq_ok_iff.1 hdoc
  have hbody := wellFormed_of_mem_bodyLines (Parts.wellFormed hcontent hparts).2.2.1
  refine ⟨parts, hparts, ?_⟩
  intro b hb t ht
  have hread : b ∈ d.finish (readLines d (bodyLines parts.body)).blocks := hb
  rw [hbuiltIn.finish_eq] at hread
  obtain ⟨first, rest, hsuffix, hfirst, -⟩ := exists_read_of_mem_readLines _ hread
  have hgives := Line.gives_of_mem_read hfirst
  rw [hbuiltIn.readAs_eq, Option.getD_none, trim_trimRight] at hgives
  have hlines : ∀ l ∈ first :: rest, WellFormed l := fun l hl => hbody l (hsuffix.subset hl)
  have hline := (hlines first List.mem_cons_self).trim
  obtain ⟨hne, u, hpassage, rfl⟩ := hgives.exists_passage hbuiltIn hlines ht
  refine ⟨hne, first, rest, u, hsuffix, hpassage, ?_, rfl, ?_⟩
  · exact hpassage.trim_eq_or hline hlines (trim_trim first)
  · exact trim_clean_eq_iff (hpassage.wellFormed hline hlines)

/-- A page with blanks between punctuation and words: a line, a gloss that raises words,
and a line of nothing but punctuation and a blank. -/
def frayedPage : Text :=
  utf8 ("\\begin\x7bdocument\x7d\n\\begin\x7b正文\x7d\n。 甲\n"
    ++ "\\注\x7b宋，\\相对抬头[1]\x7b太祖\u3000》\x7d\x7d\n。 ，\n"
    ++ "\\end\x7b正文\x7d\n\\end\x7bdocument\x7d")

/-- What it says. -/
def frayedBlocks : List Block :=
  [.text (utf8 " 甲") 0,
    .gloss ⟨utf8 "宋太祖\u3000", 2, [⟨utf8 "宋", 0, false⟩, ⟨utf8 "太祖\u3000", -1, true⟩]⟩,
    .text (utf8 " ") 0]

theorem ofText_frayedPage :
    Document.ofText Catalogue.dialect frayedPage = .ok (.bare { blocks := frayedBlocks }) := by
  decide +kernel

/-- The words of its first line come from a frayed passage, and those of the first segment
of its gloss from one that is not. -/
theorem frayed_frayedBlocks :
    (∃ u, utf8 " 甲" = clean u ∧ Frayed u) ∧ ∃ u, utf8 "宋" = clean u ∧ ¬ Frayed u := by
  obtain ⟨parts, -, hwords⟩ := Document.running_of_ofText
    (rfl : Dialect.named (utf8 "siku-mulu") = .ok Catalogue.dialect) (wellFormed_utf8 _)
    ofText_frayedPage
  have hwords : ∀ b ∈ frayedBlocks, ∀ t ∈ b.running,
      ∃ u, t = clean u ∧ (trim t = t ↔ ¬ Frayed u) := by
    intro b hb t ht
    obtain ⟨-, -, -, u, -, -, -, hclean, hfrayed⟩ := hwords b hb t ht
    exact ⟨u, hclean, hfrayed⟩
  obtain ⟨u, hu, hline⟩ := hwords (.text (utf8 " 甲") 0) (by simp [frayedBlocks]) (utf8 " 甲")
    (by simp [Block.running])
  obtain ⟨v, hv, hsegment⟩ := hwords _ (List.mem_cons_of_mem _ List.mem_cons_self) (utf8 "宋")
    (by simp [Block.running])
  have hblank : ¬ trim (utf8 " 甲") = utf8 " 甲" := by decide +kernel
  have hflush : trim (utf8 "宋") = utf8 "宋" := by decide +kernel
  exact ⟨⟨u, hu, not_not.1 fun h => hblank (hline.2 h)⟩, v, hv, hsegment.1 hflush⟩

/-- Not all running words are trimmed: of a line that starts with a full stop and a
blank, the blank remains. -/
theorem exists_untrimmed_frayedLine :
    ∃ doc, Document.ofText .plain (inDocument (utf8 "。 甲")) = .ok doc
      ∧ doc.blocks = [.text (utf8 " 甲") 0]
      ∧ ¬ ∀ b ∈ doc.blocks, ∀ t ∈ b.running, t ≠ [] ∧ trim t = t := by
  have hread : Document.ofText .plain (inDocument (utf8 "。 甲"))
      = .ok (.bare { blocks := [.text (utf8 " 甲") 0] }) := by
    decide +kernel
  refine ⟨_, hread, rfl, ?_⟩
  show ¬ ∀ b ∈ [Block.text (utf8 " 甲") 0], ∀ t ∈ b.running, t ≠ [] ∧ trim t = t
  decide +kernel

end FolioGrid
