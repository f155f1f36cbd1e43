/-
  FolioGrid.Proofs.Source.Paragraph
  ────────────────────────────────
  **PARAGRAPHS READ BACK.**

  A paragraph is the only block that is written as more than one line.  Its
  options stand on the first, its words on the second, and the third ends it.
  It is read from any number of lines of words (`read_environment`).
-/
import FolioGrid.Proofs.Reading.Readers
import FolioGrid.Proofs.Source.Line

namespace FolioGrid.Paragraph

open FolioGrid.Text FolioGrid.Markup

variable {t : Text} {indent firstIndent : Nat}

/-! ## §1. Options. -/

/-- Two options are written, each a key and a numeral. -/
theorem options_eq (t : Text) (indent firstIndent : Nat) :
    options ⟨t, indent, firstIndent⟩
      = (utf8 "indent" ++ equalsSign :: natDecimal indent) ++ comma
        :: (ascii ' ' :: (utf8 "first-indent" ++ equalsSign :: natDecimal firstIndent)) := by
  unfold options
  rw [decimal_natCast, decimal_natCast,
    show utf8 "indent=" = utf8 "indent" ++ [equalsSign] by decide,
    show utf8 ", first-indent=" = comma :: ascii ' ' :: (utf8 "first-indent" ++ [equalsSign]) by
      decide]
  simp only [List.append_assoc, List.cons_append, List.nil_append]

/-- A byte of an option is one of its key, the equals sign or a digit. -/
theorem not_mem_option {key : Text} {b : UInt8} (hkey : b ∉ key) (heq : b ≠ equalsSign)
    (hdigit : isDigit b = false) (n : Nat) : b ∉ key ++ equalsSign :: natDecimal n := by
  rw [List.mem_append, List.mem_cons]
  rintro (h | h | h)
  · exact hkey h
  · exact heq h
  · exact not_mem_natDecimal hdigit n h

theorem solid_option {key : Text} (hkey : Solid key) (n : Nat) :
    Solid (key ++ equalsSign :: natDecimal n) :=
  hkey.append_cons (by decide) (by decide) (plain_natDecimal n).solid

/-- **Both are read back** from their list. -/
theorem optionTable_options (t : Text) (indent firstIndent : Nat) :
    optionTable (options ⟨t, indent, firstIndent⟩)
      = (Table.empty.insert (utf8 "indent") (natDecimal indent)).insert (utf8 "first-indent")
          (natDecimal firstIndent) := by
  have hkey : Solid (utf8 "indent") := ⟨by decide +kernel, not_infix_of_not_mem (by decide)⟩
  have hfirstKey : Solid (utf8 "first-indent") :=
    ⟨by decide +kernel, not_infix_of_not_mem (by decide)⟩
  have hcomma : comma ∉ utf8 "indent" ++ equalsSign :: natDecimal indent :=
    not_mem_option (by decide) (by decide) (by decide) indent
  have hfirstComma :
      comma ∉ ascii ' ' :: (utf8 "first-indent" ++ equalsSign :: natDecimal firstIndent) := by
    rw [List.mem_cons, not_or]
    exact ⟨by decide, not_mem_option (by decide) (by decide) (by decide) firstIndent⟩
  -- the blank behind the comma goes with the second key
  have hspace := (solid_option hfirstKey firstIndent).trim_cons (a := ascii ' ') (by decide)
  rw [options_eq, optionTable_pair hcomma hfirstComma (by decide) (by decide)
    (solid_option hkey indent).trim_eq hspace, (plain_natDecimal indent).solid.trim_eq,
    (plain_natDecimal firstIndent).solid.trim_eq, hkey.trim_eq, hfirstKey.trim_eq]

/-- A numeral under a key is the indent. -/
theorem indentOption_of_get? {table : Table} {key : Text} {n : Nat} (hn : n ≤ maxCount)
    (h : table.get? key = some (natDecimal n)) (otherwise : Int) :
    indentOption table key otherwise = ⟨(n : Int), []⟩ := by
  unfold indentOption
  rw [h]
  simp only [count?_natDecimal hn]
  rfl

/-- Both indents are found, and nothing is reported. -/
theorem indents_options (t : Text) (hindent : indent ≤ maxCount) (hfirst : firstIndent ≤ maxCount) :
    indents (optionTable (options ⟨t, indent, firstIndent⟩)) = ⟨(indent, firstIndent), []⟩ := by
  have hget : (optionTable (options ⟨t, indent, firstIndent⟩)).get? (utf8 "indent")
      = some (natDecimal indent) := by
    rw [optionTable_options, Table.get?_insert, if_neg (by decide), Table.get?_insert, if_pos rfl]
  have hgetFirst : (optionTable (options ⟨t, indent, firstIndent⟩)).get? (utf8 "first-indent")
      = some (natDecimal firstIndent) := by
    rw [optionTable_options, Table.get?_insert, if_pos rfl]
  unfold indents
  simp only [bind, Logged.bind, indentOption_of_get? hindent hget,
    indentOption_of_get? hfirst hgetFirst]
  rfl

/-! ## §2. The three lines. -/

/-- Words without a percent sign hold no comment. -/
theorem beforeComment_eq_self (h : percent ∉ t) (escaped : Bool) : beforeComment escaped t = t := by
  induction t generalizing escaped with
  | nil => rfl
  | cons b t ih =>
    rw [List.mem_cons, not_or] at h
    have hb : ¬ (b = percent && !escaped) = true := by
      simp [Ne.symm h.1]
    unfold beforeComment
    rw [if_neg hb, ih h.2]

/-- A line without white and without a comment is its own text. -/
theorem lineText_eq_self (h : Solid t) (hpercent : percent ∉ t) : lineText t = t := by
  unfold lineText
  rw [h.trim_eq, beforeComment_eq_self hpercent, h.trimRight_eq]

/-- The environment encloses the lines above the mark of its end. -/
theorem enclosed_lines {words : List Text} (h : ∀ w ∈ words, backslash ∉ w) (behind : Text)
    (below : List Text) :
    enclosed (words ++ (closing ++ behind) :: below) = ⟨words ++ [[]], words.length + 1, true⟩ := by
  -- from the last line up, since each line is put in front of those below it
  induction words with
  | nil =>
    have hclosing : cut? closing (closing ++ behind) = some ⟨[], closing, behind⟩ :=
      cut?_append closing behind
    rw [List.nil_append, enclosed_cons_of_some hclosing]
    rfl
  | cons w words ih =>
    have hnone : cut? closing w = none :=
      cut?_eq_none_iff.2 (not_infix_of_not_mem (h w List.mem_cons_self))
    rw [List.cons_append, enclosed_cons_of_none hnone,
      ih fun w hw => h w (List.mem_cons_of_mem _ hw)]
    rfl

/-- So lines of plain words are read one behind the other. -/
theorem flatMap_lineText {words : List Text} (h : ∀ w ∈ words, Plain w) :
    words.flatMap lineText = words.flatten := by
  induction words with
  | nil => rfl
  | cons w words ih =>
    have hw := h w List.mem_cons_self
    rw [List.flatMap_cons, List.flatten_cons,
      lineText_eq_self hw.solid (hw.noMarkup _ (by decide)),
      ih fun w hw => h w (List.mem_cons_of_mem _ hw)]

/-- The options hold digits and the bytes of their keys. -/
theorem not_mem_options {b : UInt8} (hdigit : isDigit b = false) (hkey : b ∉ utf8 "indent=")
    (hfirst : b ∉ utf8 ", first-indent=") (t : Text) (indent firstIndent : Nat) :
    b ∉ options ⟨t, indent, firstIndent⟩ := by
  unfold options
  rw [decimal_natCast, decimal_natCast]
  simp only [List.mem_append, not_or]
  exact ⟨⟨⟨hkey, not_mem_natDecimal hdigit indent⟩, hfirst⟩, not_mem_natDecimal hdigit firstIndent⟩

theorem passes_options (t : Text) (indent firstIndent : Nat) :
    brackets.Passes (options ⟨t, indent, firstIndent⟩) :=
  .of_not_mem (not_mem_options (by decide) (by decide) (by decide) t indent firstIndent)
    (not_mem_options (by decide) (by decide) (by decide) t indent firstIndent)

/-- What is read from lines of words in an environment with options. -/
def wordsReading (o : Option Text) (words : List Text) : Reading :=
  let layout := indents (optionTable (o.getD []))
  { blocks :=
      if words.flatten = [] then []
      else [.paragraph ⟨words.flatten, layout.value.1, layout.value.2⟩]
    lines := words.length + 2
    notices := layout.notices }

/-- **A paragraph of plain words is read back** up to its closing mark, whatever stands
behind it. -/
theorem read_words {o : Option Text} (ho : ∀ o' ∈ o, brackets.Passes o') {words : List Text}
    (hwords : ∀ w ∈ words, Plain w) (hclean : clean words.flatten = words.flatten) (behind : Text)
    (below : List Text) :
    read (o.elim [] option) (words ++ (closing ++ behind) :: below) = wordsReading o words := by
  obtain ⟨hargument, hskip⟩ :
      ((optionalArgument? (o.elim [] option)).elim [] (·.content) = o.getD [])
        ∧ skipOption (o.elim [] option) = [] := by
    cases o with
    | none => exact ⟨rfl, rfl⟩
    | some o' =>
      have hoption := optionalArgument?_option (ho o' rfl) []
      have hrest := skipOption_option (ho o' rfl) []
      rw [List.append_nil] at hoption hrest
      exact ⟨by rw [Option.elim_some, hoption]; rfl, hrest⟩
  have hbackslash : ∀ w ∈ [] :: words, backslash ∉ w := by
    intro w hw
    rcases List.mem_cons.1 hw with rfl | hw
    · exact List.not_mem_nil
    · exact (hwords w hw).backslash_not_mem
  have hlines : ([] :: words ++ [[]]).flatMap lineText = words.flatten := by
    rw [List.cons_append, List.flatMap_cons, List.flatMap_append, flatMap_lineText hwords,
      show lineText [] = [] from rfl, List.nil_append]
    exact List.append_nil _
  unfold read
  simp only [hargument, hskip]
  rw [← List.cons_append, enclosed_lines hbackslash behind below]
  simp only [hlines, hclean]
  exact congrArg (Reading.mk _ _ _ _) (List.append_nil _)

/-- A line that opens an environment, with blanks around it, is read from what stands
behind the mark. -/
theorem read_of_trim {d : Dialect} (hd : d.BuiltIn) {first u : Text} (h : trim first = opening ++ u)
    (below : List Text) : Line.read d first below = read u below := by
  -- a paragraph is tried after headings, page ends and seals
  have hsilent : Line.isSilent (opening ++ u) = false := rfl
  have htitle : Line.chapterTitle? (opening ++ u) = none := rfl
  have hpage : opening ++ u ≠ Line.newPageCommand := Line.ne_of_after?_eq_none rfl
  have hisStamp : Stamp.isStamp (opening ++ u) = false := rfl
  rw [Line.read_eq hd, h, hsilent]
  unfold Line.readTrimmed
  rw [if_neg Bool.false_ne_true, if_neg (List.append_ne_nil_of_left_ne_nil (by decide) _)]
  simp only [htitle, if_neg hpage, hisStamp, Bool.false_eq_true, if_false, after?_append]
  rfl

/-- A line that opens a paragraph is read as nothing else. -/
theorem read_opening {d : Dialect} (hd : d.BuiltIn) {u : Text} (htrim : Trimmed (opening ++ u))
    (below : List Text) : Line.read d (opening ++ u) below = read u below :=
  read_of_trim hd htrim.both below

/-- An environment of words, on any number of lines, is read as a paragraph;
what stands behind the mark of its end is not. -/
theorem read_environment {d : Dialect} (hd : d.BuiltIn) {o : Option Text}
    (ho : ∀ o' ∈ o, brackets.Passes o') {words : List Text} (hwords : ∀ w ∈ words, Plain w)
    (hclean : clean words.flatten = words.flatten) (behind : Text) (below : List Text) :
    Line.read d (opening ++ o.elim [] option) (words ++ (closing ++ behind) :: below)
      = wordsReading o words := by
  have htrim : Trimmed (opening ++ o.elim [] option) := by
    cases o with
    | none => exact trimmed_of_ends (b := closeBrace) rfl rfl (by decide) (by decide)
    | some o' =>
      have hlast : (opening ++ option o').getLast? = some closeBracket := by
        unfold option
        rw [← List.append_assoc, List.getLast?_concat]
      exact trimmed_of_ends rfl hlast (by decide) (by decide)
  rw [read_opening hd htrim]
  exact read_words ho hwords hclean behind below

/-- **A paragraph is read back** from its three lines. -/
theorem read_lines {d : Dialect} (hd : d.BuiltIn) (h : Plain t) (hindent : indent ≤ maxCount)
    (hfirst : firstIndent ≤ maxCount) (below : List Text) :
    Line.read d (opening ++ option (options ⟨t, indent, firstIndent⟩)) (t :: closing :: below)
      = { blocks := [.paragraph ⟨t, indent, firstIndent⟩], lines := 3 } := by
  have hwords : [t].flatten = t := List.append_nil t
  have hoptions : ∀ o ∈ some (options ⟨t, indent, firstIndent⟩), brackets.Passes o :=
    fun _ ho => Option.some.inj ho ▸ passes_options t indent firstIndent
  have hplain : ∀ w ∈ [t], Plain w := fun w hw => by rwa [List.mem_singleton.1 hw]
  have hread := read_environment hd hoptions hplain (by rw [hwords, h.clean_eq]) [] below
  unfold wordsReading at hread
  simp only [hwords, if_neg h.nonempty, Option.getD_some, indents_options t hindent hfirst,
    List.append_nil] at hread
  exact hread

end FolioGrid.Paragraph
