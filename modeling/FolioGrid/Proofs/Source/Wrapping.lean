/-
  FolioGrid.Proofs.Source.Wrapping
  ────────────────────────────────
  **TEXT ON ONE LINE AND ON MANY.**

  A gloss, a note or a paragraph may be typed on one line, or its text may be cut
  anywhere and go on below, also in the middle of a command or of a group.  It makes
  no difference:

      Wrapped                   — a text on lines
      Rewrapped                 — a construct on lines, with blanks around each
      Document.ofText_rewrapped — all of these are one document
-/
import FolioGrid.Proofs.Document.Padding
import FolioGrid.Proofs.Source.Paragraph

namespace FolioGrid

open FolioGrid.Text FolioGrid.Markup

variable {behind t first : Text} {ls rest : List Text}

/-! ## §1. Text on lines. -/

/-- A text on lines, cut anywhere, with `behind` behind the last of them.  A line that
gets nothing of the text is empty. -/
inductive Wrapped (behind : Text) : Text → List Text → Prop where
  /-- All is on the last line. -/
  | last (p : Text) : Wrapped behind p [p ++ behind]
  /-- A line, and more below it. -/
  | cons (p : Text) {t : Text} {ls : List Text} (h : Wrapped behind t ls) :
      Wrapped behind (p ++ t) (p :: ls)

/-- A blank line in between. -/
theorem Wrapped.blank (h : Wrapped behind t ls) : Wrapped behind t ([] :: ls) := .cons [] h

theorem Wrapped.ne_nil (h : Wrapped behind t ls) : ls ≠ [] := by
  cases h with
  | last p => exact List.cons_ne_nil _ _
  | cons p h => exact List.cons_ne_nil _ _

/-- No line holds what the text and its end do not hold. -/
theorem Wrapped.isInfix (h : Wrapped behind t ls) : ∀ l ∈ ls, l <:+: t ++ behind := by
  induction h with
  | last p =>
    intro l hl
    rw [List.mem_singleton.1 hl]
  | @cons p t ls h ih =>
    intro l hl
    rw [List.append_assoc]
    rcases List.mem_cons.1 hl with rfl | hl
    · exact (List.prefix_append l _).isInfix
    · exact (ih l hl).trans (List.suffix_append p _).isInfix

/-- The lines below each other, in one line, are the text. -/
theorem Wrapped.exists_joinLines (h : Wrapped behind t ls) (hlf : lineFeed ∉ t) :
    ∃ x, joinLines ls = x ++ behind ∧ oneLine x = t := by
  induction h with
  | last p => exact ⟨p, List.intercalate_singleton, oneLine_eq_self hlf⟩
  | @cons p t ls h ih =>
    rw [List.mem_append, not_or] at hlf
    obtain ⟨x, hx, hone⟩ := ih hlf.2
    refine ⟨p ++ lineFeed :: x, ?_, ?_⟩
    · rw [joinLines_cons p h.ne_nil, hx, List.append_assoc, List.cons_append]
    · rw [List.append_cons, oneLine_append, oneLine_append, hone, oneLine_eq_self hlf.1]
      show p ++ [] ++ t = p ++ t
      rw [List.append_nil]

/-- The lines of a construct: its text between `before` and `behind`, wrapped, and
blanks around each line. -/
inductive Rewrapped (before behind t : Text) (ls : List Text) : Prop where
  /-- The text starts on the line of `before`. -/
  | mk {first : Text} {rest : List Text} (hwrapped : Wrapped behind t (first :: rest))
      (hpadded : List.Forall₂ Padded ((before ++ first) :: rest) ls)

/-! ## §2. Constructs. -/

/-- A construct of lines that are taken by one reading. -/
theorem Document.ofText_of_read {d : Dialect} (hd : d.BuiltIn) {before : Text} {r : Reading}
    (hlf : lineFeed ∉ before) (hsolid : Solid (t ++ behind))
    (hbefore : ∀ u, (∀ m ∈ documentEnd :: bodyEnds, ¬ m <:+: u) →
      ∀ m ∈ documentEnd :: bodyEnds, ¬ m <:+: before ++ u)
    (hends : ∀ m ∈ documentEnd :: bodyEnds, ¬ m <:+: t ++ behind)
    (h : Wrapped behind t (first :: rest))
    (hpadded : List.Forall₂ Padded ((before ++ first) :: rest) ls)
    (hread : Line.read d (before ++ first) (rest ++ [[]]) = r)
    (hlines : r.lines = rest.length + 1) :
    Document.ofText d (inDocument (joinLines ls)) = .ok (.bare r) := by
  -- what the text and its end do not hold, no line holds
  have hlineFeed : ∀ l ∈ first :: rest, lineFeed ∉ l :=
    fun l hl => (hsolid.of_infix (h.isInfix l hl)).lineFeed_not_mem
  have hmark : ∀ l ∈ first :: rest, ∀ m ∈ documentEnd :: bodyEnds, ¬ m <:+: l :=
    fun l hl m hm hin => hends m hm (hin.trans (h.isInfix l hl))
  rw [List.forall_mem_cons] at hlineFeed hmark
  rw [Document.ofText_joinLines_of_padded hd (List.forall_mem_cons.2 ⟨?_, hlineFeed.2⟩)
    (List.forall_mem_cons.2 ⟨hbefore first hmark.1, hmark.2⟩) hpadded,
    readLines_of_read hread hlines]
  rw [List.mem_append, not_or]
  exact ⟨hlf, hlineFeed.1⟩

/-! ## §3. Glosses and notes. -/

namespace Catalogue

variable {name : String}

/-- A line with the command of a gloss or a note is read from its argument on. -/
theorem exists_read_eq_readGloss (hname : name ∈ ["注", "按"]) :
    ∃ indent unwrap, ∀ t rest, Trimmed (command name ++ openBrace :: t) →
      Line.read dialect (command name ++ openBrace :: t) rest
        = readGloss (command name) indent unwrap ((command name ++ openBrace :: t) :: rest) := by
  have hother : ∀ name ∈ ["注", "按"], ∀ p ∈ Entry.entryCommand :: Line.openings,
      ¬ p <+: command name ∧ ¬ command name <+: p := by decide +kernel
  have hopen : ∀ t, ∀ p ∈ Entry.entryCommand :: Line.openings,
      after? p (command name ++ openBrace :: t) = none :=
    fun t p hp => after?_append_eq_none (hother name hname p hp).1 (hother name hname p hp).2 _
  have hgloss : ∀ line ls, readCommand (utf8 "注") line ls
      = some (readGloss (command "注") glossIndent true ls) := fun _ _ => if_pos rfl
  have hnote : ∀ line ls, readCommand (utf8 "按") line ls
      = some (readGloss (command "按") noteIndent false ls) :=
    fun _ _ => (if_neg (by decide)).trans (if_pos rfl)
  rcases List.mem_cons.1 hname with rfl | hname
  · refine ⟨glossIndent, true, fun t rest htrim => ?_⟩
    exact Line.read_known .catalogue rfl htrim (hopen t) (show utf8 "注" ≠ [] by decide)
      (hgloss (command "注" ++ openBrace :: t) _)
  · obtain rfl := List.mem_singleton.1 hname
    refine ⟨noteIndent, false, fun t rest htrim => ?_⟩
    exact Line.read_known .catalogue rfl htrim (hopen t) (show utf8 "按" ≠ [] by decide)
      (hnote (command "按" ++ openBrace :: t) _)

theorem lines_readGloss (command : Text) (indent : Int) (unwrap : Bool) (ls : List Text) :
    (readGloss command indent unwrap ls).lines = (collect command ls).lines := rfl

/-- Glosses of one text make one document. -/
theorem bare_readGloss_congr {command : Text} {ls ls' : List Text} (indent : Int) (unwrap : Bool)
    (hcontent : (collect command ls).content = (collect command ls').content)
    (h : (collect command ls).closed = true) (h' : (collect command ls').closed = true) :
    Document.bare (readGloss command indent unwrap ls)
      = Document.bare (readGloss command indent unwrap ls') := by
  unfold readGloss Document.bare Collected.reading Collected.unbalanced Collected.notices
  simp only [hcontent, h, h', if_true]

/-- The argument of a gloss is collected from all lines on which its text stands, and
in one line it is the text. -/
theorem collect_wrapped (name : String) (ht : Solid t) (hbalanced : braces.Balanced t)
    (h : Wrapped [closeBrace] t (first :: rest)) (below : List Text) :
    ∃ text, collect (command name) ((command name ++ openBrace :: first) :: rest ++ below)
      = ⟨text, t, rest.length + 1, true⟩ := by
  have hsolid : Solid (t ++ [closeBrace]) := ht.append_cons (by decide) (by decide) Solid.nil
  have hlines := fun l hl => hsolid.of_infix (h.isInfix l hl)
  rw [List.forall_mem_cons] at hlines
  have htrim : gathered ((command name ++ openBrace :: first) :: rest)
      = joinLines ((command name ++ openBrace :: first) :: rest) := by
    have hfirst : Trimmed (command name ++ openBrace :: first) :=
      hlines.1.trimmed_append_cons (b := backslash) rfl (by decide) (by decide)
    have hrest : rest.map trim = rest := by
      rw [List.map_congr_left fun l hl => (hlines.2 l hl).trim_eq, List.map_id']
    unfold gathered
    rw [List.map_cons, hfirst.both, hrest]
  obtain ⟨x, hx, hone⟩ := h.exists_joinLines ht.lineFeed_not_mem
  have hcommand : gathered ((command name ++ openBrace :: first) :: rest)
      = commandLine (command name) none x [] := by
    obtain ⟨u, hu⟩ := exists_joinLines_cons rest
    rw [htrim, hu, List.append_assoc, List.cons_append, ← hu, hx, commandLine_none]
    rfl
  -- cut into lines it is as deep as before
  have hpasses : braces.Passes x := by
    refine Delimiters.Balanced.passes braces_ne (hbalanced.congr braces_ne ?_)
    rw [← hone]
    exact (Delimiters.depth?_filter (by decide) (by decide) x).symm
  have hclosed : closedArgument? (command name)
      (gathered ((command name ++ openBrace :: first) :: rest)) = some ⟨x, [], true⟩ := by
    unfold closedArgument?
    rw [hcommand, argumentOf?_commandLine (by simp) hpasses]
    rfl
  have hcollect := collect_of_closedArgument? hclosed List.not_mem_nil below
  rw [hone] at hcollect
  exact ⟨_, hcollect⟩

/-- **Glosses and notes may be wrapped.** -/
theorem exists_ofText_rewrapped (hname : name ∈ ["注", "按"]) (ht : Solid t)
    (hbalanced : braces.Balanced t) (hends : ∀ m ∈ documentEnd :: bodyEnds, ¬ m <:+: t) :
    ∃ doc, ∀ ls, Rewrapped (command name ++ [openBrace]) [closeBrace] t ls →
      Document.ofText dialect (inDocument (joinLines ls)) = .ok doc := by
  obtain ⟨indent, unwrap, hread⟩ := exists_read_eq_readGloss hname
  have hsolid : Solid (t ++ [closeBrace]) := ht.append_cons (by decide) (by decide) Solid.nil
  have hmarks : ∀ m ∈ documentEnd :: bodyEnds, ¬ m <:+: t ++ [closeBrace] := by
    have hopen : ∀ m ∈ documentEnd :: bodyEnds,
        m.dropLast.count braces.closer < m.dropLast.count braces.opener := by decide +kernel
    exact fun m hm => hbalanced.not_infix_concat (hends m hm) (hopen m hm) closeBrace
  have hcommand : ∀ name ∈ ["注", "按"],
      lineFeed ∉ command name ++ [openBrace] ∧ backslash ∉ utf8 name ++ [openBrace]
      ∧ ∀ m ∈ documentEnd :: bodyEnds, ¬ m <+: command name ∧ ¬ command name <+: m := by
    decide +kernel
  obtain ⟨hlf, hbackslash, hother⟩ := hcommand name hname
  -- all wrappings are read as the one in which the text stands on one line
  let line := command name ++ openBrace :: (t ++ [closeBrace])
  obtain ⟨text, hone⟩ := collect_wrapped name ht hbalanced (.last t) [[]]
  refine ⟨.bare (readGloss (command name) indent unwrap ([line] ++ [[]])), ?_⟩
  rintro ls @⟨first, rest, hwrapped, hpadded⟩
  obtain ⟨text', hmany⟩ := collect_wrapped name ht hbalanced hwrapped [[]]
  have hcontent :
      (collect (command name) ((command name ++ openBrace :: first) :: rest ++ [[]])).content
        = (collect (command name) ([line] ++ [[]])).content := by
    rw [hmany, hone]
  have hbare := bare_readGloss_congr indent unwrap hcontent
    (congrArg Collected.closed hmany) (congrArg Collected.closed hone)
  have hfirst : Trimmed (command name ++ openBrace :: first) :=
    (hsolid.of_infix (hwrapped.isInfix first List.mem_cons_self)).trimmed_append_cons
      (b := backslash) rfl (by decide) (by decide)
  rw [← hbare]
  refine Document.ofText_of_read .catalogue hlf hsolid ?_ hmarks hwrapped hpadded ?_ ?_
  · exact fun u hu => not_infix_command_append hother hbackslash hu
  · rw [List.append_assoc]
    exact hread first _ hfirst
  · rw [lines_readGloss, hmany]

end Catalogue

/-! ## §4. Paragraphs. -/

namespace Paragraph

variable {o : Text}

/-- The lines on which a text stands are those up to the mark of the end, and what
they add to a paragraph is the text. -/
theorem exists_enclosed_wrapped (h : Wrapped closing t ls) (hends : ¬ closing <:+: t)
    (hwords : ∀ l, l <:+: t → lineText l = l) (below : List Text) :
    ∃ inner, enclosed (ls ++ below) = ⟨inner, ls.length, true⟩ ∧ inner.flatMap lineText = t := by
  induction h with
  | last p =>
    have hcut : cut? closing (p ++ closing) = some ⟨p, closing, []⟩ := by
      refine (cut?_eq_some_iff (by decide)).2 ⟨(List.append_nil _).symm, rfl, fun hin => ?_⟩
      -- the mark starts with its only backslash, so it does not overlap with itself
      have hmark : backslash ∉ closing.tail ∧ ¬ closing <+: closing.dropLast
          ∧ ¬ closing <:+: closing.dropLast.tail := by
        decide +kernel
      have hparts : backslash :: closing.tail <:+: p ++ backslash :: closing.dropLast.tail := hin
      rcases (infix_append_cons_iff_of_head hmark.1).1 hparts with hin | hin | hin
      · exact hends hin
      · exact hmark.2.1 hin
      · exact hmark.2.2 hin
    refine ⟨[p], ?_, ?_⟩
    · rw [List.singleton_append, enclosed]
      simp only [hcut]
      rfl
    · rw [List.flatMap_singleton, hwords p List.infix_rfl]
  | @cons p t ls h ih =>
    have hnone : cut? closing p = none :=
      cut?_eq_none_iff.2 fun hin => hends (hin.trans (List.prefix_append p t).isInfix)
    have hbelow := (List.suffix_append p t).isInfix
    obtain ⟨inner, henclosed, htext⟩ :=
      ih (fun hin => hends (hin.trans hbelow)) fun l hl => hwords l (hl.trans hbelow)
    refine ⟨p :: inner, ?_, ?_⟩
    · rw [List.cons_append, enclosed]
      simp only [hnone, henclosed]
      rfl
    · rw [List.flatMap_cons, htext, hwords p (List.prefix_append p t).isInfix]

/-- What is read from a text in an environment with options. -/
def textReading (o t : Text) (lines : Nat) : Reading :=
  let layout := indents (optionTable o)
  { blocks :=
      if clean t = [] then [] else [.paragraph ⟨clean t, layout.value.1, layout.value.2⟩]
    lines := lines
    notices := layout.notices }

theorem read_option (ho : brackets.Passes o) {inner below : List Text} {lines : Nat}
    (henclosed : enclosed (first :: below) = ⟨inner, lines, true⟩)
    (htext : inner.flatMap lineText = t) :
    read (option o ++ first) below = textReading o t lines := by
  unfold read
  simp only [optionalArgument?_option ho, skipOption_option ho, henclosed, htext]
  exact congrArg (Reading.mk _ _ _ _) (List.append_nil _)

/-- Behind a text, the mark of a paragraph's end makes no mark of an end. -/
theorem not_infix_append_closing (hends : ∀ m ∈ documentEnd :: bodyEnds, ¬ m <:+: t) :
    ∀ m ∈ documentEnd :: bodyEnds, ¬ m <:+: t ++ closing := by
  intro m hm hin
  have hother : ∀ m ∈ documentEnd :: bodyEnds, ¬ m <+: closing ∧ ¬ m <:+: closing.tail := by
    decide +kernel
  obtain ⟨p, rfl, hp⟩ := exists_of_mem_endMarks hm
  rcases (infix_append_cons_iff_of_head hp).1 hin with hin | hin | hin
  · exact hends _ hm hin
  · exact (hother _ hm).1 hin
  · exact (hother _ hm).2 hin

/-- Nor does that of its start, with options, in front of one. -/
theorem not_infix_opening_append (ho : backslash ∉ o) {u : Text}
    (hu : ∀ m ∈ documentEnd :: bodyEnds, ¬ m <:+: u) :
    ∀ m ∈ documentEnd :: bodyEnds, ¬ m <:+: opening ++ option o ++ u := by
  have hname : ∀ m ∈ documentEnd :: bodyEnds, ¬ m <+: backslash :: opening.tail
      ∧ ¬ backslash :: opening.tail <+: m := by
    decide +kernel
  have hbehind : backslash ∉ opening.tail ++ option o := by
    rw [List.mem_append, not_or]
    exact ⟨by decide, Markup.not_mem_option (by decide) (by decide) ho⟩
  exact not_infix_command_append hname hbehind hu

/-- **Paragraphs may be wrapped.** -/
theorem exists_ofText_rewrapped {d : Dialect} (hd : d.BuiltIn) (ht : Solid t)
    (hpercent : percent ∉ t) (hclosing : ¬ closing <:+: t)
    (hends : ∀ m ∈ documentEnd :: bodyEnds, ¬ m <:+: t)
    (ho : ∀ b ∈ [openBracket, closeBracket, backslash, lineFeed], b ∉ o) :
    ∃ doc, ∀ ls, Rewrapped (opening ++ option o) closing t ls →
      Document.ofText d (inDocument (joinLines ls)) = .ok doc := by
  simp only [List.forall_mem_cons] at ho
  obtain ⟨hopenBracket, hcloseBracket, hbackslash, hlineFeed, -⟩ := ho
  have hpasses : brackets.Passes o := .of_not_mem hopenBracket hcloseBracket
  have hsolid : Solid (t ++ closing) :=
    ht.append_cons (by decide) (by decide) ⟨by decide +kernel, by decide +kernel⟩
  have hlf : lineFeed ∉ opening ++ option o := by
    rw [List.mem_append, not_or]
    exact ⟨by decide, Markup.not_mem_option (by decide) (by decide) hlineFeed⟩
  have hwords : ∀ l, l <:+: t → lineText l = l :=
    fun l hl => lineText_eq_self (ht.of_infix hl) fun hmem => hpercent (hl.mem hmem)
  refine ⟨.bare (textReading o t 1), ?_⟩
  rintro ls @⟨first, rest, hwrapped, hpadded⟩
  obtain ⟨inner, henclosed, htext⟩ := exists_enclosed_wrapped hwrapped hclosing hwords [[]]
  have htrim : Trimmed (opening ++ (option o ++ first)) := by
    have hfirst : Solid first := hsolid.of_infix (hwrapped.isInfix first List.mem_cons_self)
    rw [show opening ++ (option o ++ first)
        = (opening ++ openBracket :: o) ++ closeBracket :: first by simp [option]]
    exact hfirst.trimmed_append_cons (b := backslash) rfl (by decide) (by decide)
  have hread : Line.read d (opening ++ option o ++ first) (rest ++ [[]])
      = textReading o t (rest.length + 1) := by
    rw [List.append_assoc, read_opening hd htrim]
    exact read_option hpasses henclosed htext
  -- a document does not say on how many lines it stood
  have hdoc := Document.ofText_of_read hd hlf hsolid
    (fun u hu => not_infix_opening_append hbackslash hu) (not_infix_append_closing hends) hwrapped
    hpadded hread rfl
  exact hdoc

end Paragraph

/-! ## §5. Documents. -/

/-- The construct on one line. -/
theorem Rewrapped.line (before behind t : Text) :
    Rewrapped before behind t [before ++ (t ++ behind)] := by
  have hpadded : Padded (before ++ (t ++ behind)) ([] ++ (before ++ (t ++ behind)) ++ []) :=
    .mk _ .nil .nil List.not_mem_nil
  rw [List.nil_append, List.append_nil] at hpadded
  exact .mk (.last t) (.cons hpadded .nil)

/-- **Wrapping makes no difference.** Let a text hold no blank and no mark at which a
body or its document ends.  If it is balanced in braces, a gloss or a note of it is one
document, on one line and on any number of lines, wherever the text is cut and whatever
blanks and empty lines stand around the pieces.  If it holds no comment and no mark of
a paragraph's end, the same is true of a paragraph of it, in every dialect that has a
name and with any options. -/
theorem Document.ofText_rewrapped (ht : Solid t)
    (hends : ∀ m ∈ documentEnd :: bodyEnds, ¬ m <:+: t) :
    (braces.Balanced t → ∀ name ∈ ["注", "按"],
        ∃ doc, Document.ofText Catalogue.dialect (inDocument (command name ++ group t)) = .ok doc
          ∧ ∀ ls, Rewrapped (command name ++ [openBrace]) [closeBrace] t ls →
            Document.ofText Catalogue.dialect (inDocument (joinLines ls)) = .ok doc)
      ∧ (percent ∉ t → ¬ Paragraph.closing <:+: t → ∀ dialectName d,
        Dialect.named dialectName = .ok d → ∀ o,
          (∀ b ∈ [openBracket, closeBracket, backslash, lineFeed], b ∉ o) →
          ∃ doc, Document.ofText d
              (inDocument (Paragraph.opening ++ option o ++ t ++ Paragraph.closing)) = .ok doc
            ∧ ∀ ls, Rewrapped (Paragraph.opening ++ option o) Paragraph.closing t ls →
              Document.ofText d (inDocument (joinLines ls)) = .ok doc) := by
  have hline : ∀ before behind : Text,
      joinLines [before ++ (t ++ behind)] = before ++ (t ++ behind) :=
    fun _ _ => List.intercalate_singleton
  refine ⟨?_, ?_⟩
  · intro hbalanced name hname
    obtain ⟨doc, hdoc⟩ := Catalogue.exists_ofText_rewrapped hname ht hbalanced hends
    refine ⟨doc, ?_, hdoc⟩
    have hone := hdoc _ (.line _ _ _)
    rwa [hline, List.append_assoc] at hone
  · intro hpercent hclosing dialectName d hd o ho
    obtain ⟨doc, hdoc⟩ := Paragraph.exists_ofText_rewrapped (Dialect.builtIn_of_named hd) ht
      hpercent hclosing hends ho
    refine ⟨doc, ?_, hdoc⟩
    have hone := hdoc _ (.line _ _ _)
    rwa [hline, ← List.append_assoc] at hone

/-- A text with a group and a command, in three pieces: the first ends inside the group,
and the second inside the name of the command. -/
def cutText : Text := utf8 "宋\x7b人" ++ (utf8 "撰\x7d\\國" ++ utf8 "朝")

/-- A note of the text, with blanks around its lines and a blank line between them. -/
def cutNote : List Text :=
  [[0x09] ++ (command "按" ++ [openBrace] ++ utf8 "宋\x7b人") ++ [0x0D], wideSpace ++ [] ++ [],
    [0x20, 0x20] ++ utf8 "撰\x7d\\國" ++ [], [] ++ (utf8 "朝" ++ [closeBrace]) ++ [0x0D]]

/-- A paragraph of it with an option, without that line. -/
def cutParagraph : List Text :=
  [[] ++ (Paragraph.opening ++ option (utf8 "indent=2") ++ utf8 "宋\x7b人") ++ [],
    [0x09] ++ utf8 "撰\x7d\\國" ++ [], [] ++ (utf8 "朝" ++ Paragraph.closing) ++ [0x0D]]

theorem ofText_cutText :
    Document.ofText Catalogue.dialect (inDocument (joinLines cutNote))
        = .ok (.bare
            { blocks := [.gloss ⟨utf8 "宋\x7b人撰\x7d國朝", 4,
                [⟨utf8 "宋\x7b人撰\x7d", 0, false⟩, ⟨utf8 "國朝", 0, true⟩]⟩] })
      ∧ Document.ofText Dialect.plain (inDocument (joinLines cutParagraph))
        = .ok (.bare { blocks := [.paragraph ⟨utf8 "宋\x7b人撰\x7d\\國朝", 2, 2⟩] }) := by
  have hnone : ∀ l, Padded l ([] ++ l ++ []) := fun l => .mk l .nil .nil List.not_mem_nil
  have htab : Blanks wideSpace [0x09] := .space rfl .nil
  have hcr : Blanks wideSpace [0x0D] := .space rfl .nil
  obtain ⟨hnote, hparagraph⟩ := Document.ofText_rewrapped (t := cutText)
    ⟨by decide +kernel, by decide +kernel⟩ (by decide +kernel)
  constructor
  · obtain ⟨doc, hdoc, hmany⟩ := hnote (by decide +kernel) "按" (by decide)
    rw [hmany cutNote (.mk (.cons _ (.blank (.cons _ (.last _))))
      (.cons (.mk _ htab hcr (by decide))
        (.cons (.mk _ (.wide .nil) .nil (by decide))
          (.cons (.mk _ (.space rfl (.space rfl .nil)) .nil (by decide))
            (.cons (.mk _ .nil hcr (by decide)) .nil))))), ← hdoc]
    decide +kernel
  · obtain ⟨doc, hdoc, hmany⟩ := hparagraph (by decide +kernel) (by decide +kernel) (utf8 "none")
      Dialect.plain rfl (utf8 "indent=2") (by decide +kernel)
    rw [hmany cutParagraph (.mk (.cons _ (.cons _ (.last _)))
      (.cons (hnone _) (.cons (.mk _ htab .nil (by decide))
        (.cons (.mk _ .nil hcr (by decide)) .nil)))), ← hdoc]
    decide +kernel

end FolioGrid
