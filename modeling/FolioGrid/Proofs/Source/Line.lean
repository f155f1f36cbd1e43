/-
  FolioGrid.Proofs.Source.Line
  ────────────────────────────────
  **LINES READ BACK.**

  A line is tried as one thing after another, so a line that was written has to
  be told from all that is tried before it.  Commands differ in their second
  byte at the latest, and words start with no backslash.  Then each kind of
  block is read from its line.
-/
import FolioGrid.Proofs.Dialect.Glosses
import FolioGrid.Proofs.Markup.Options
import FolioGrid.Proofs.Reading.Collecting
import FolioGrid.Proofs.Source.Gloss

namespace FolioGrid

open FolioGrid.Text FolioGrid.Markup

/-! ## §1. Commands on one line. -/

/-- A command with its options, if it has any, its argument, and what stands
behind. -/
def commandLine (name : Text) (options : Option Text) (content behind : Text) : Text :=
  name ++ (options.elim [] option ++ (group content ++ behind))

section

variable {name content behind : Text} {options : Option Text}

theorem commandLine_ne_nil (h : name ≠ []) : commandLine name options content behind ≠ [] :=
  List.append_ne_nil_of_left_ne_nil h _

theorem commandLine_none (name content : Text) :
    commandLine name none content [] = name ++ group content := by
  simp [commandLine]

theorem commandLine_some (name o content : Text) :
    commandLine name (some o) content [] = name ++ option o ++ group content := by
  simp [commandLine]

/-- No blank stands in a command if none stands in its parts. -/
theorem solid_commandLine (hname : Solid name) (hoptions : ∀ o ∈ options, Solid o)
    (hcontent : Solid content) (hbehind : Solid behind) :
    Solid (commandLine name options content behind) := by
  have hgroup : ∀ {u}, Solid u → Solid (u ++ (group content ++ behind)) := by
    intro u hu
    rw [show u ++ (group content ++ behind) = u ++ openBrace :: (content ++ closeBrace :: behind)
      by simp [group]]
    exact hu.append_cons (by decide) (by decide)
      (hcontent.append_cons (by decide) (by decide) hbehind)
  cases options with
  | none => exact hgroup hname
  | some o =>
    rw [show commandLine name (some o) content behind
        = name ++ openBracket :: (o ++ closeBracket :: ([] ++ (group content ++ behind))) by
      simp [commandLine, option]]
    exact hname.append_cons (by decide) (by decide)
      ((hoptions o rfl).append_cons (by decide) (by decide) (hgroup Solid.nil))

theorem not_mem_commandLine {b : UInt8} (hb : b ∉ delimiterBytes) (hname : b ∉ name)
    (hoptions : ∀ o ∈ options, b ∉ o) (hcontent : b ∉ content) (hbehind : b ∉ behind) :
    b ∉ commandLine name options content behind := by
  simp only [delimiterBytes, List.mem_cons, List.not_mem_nil, or_false, not_or] at hb
  obtain ⟨hopenBrace, hcloseBrace, hopenBracket, hcloseBracket⟩ := hb
  have hoption : b ∉ options.elim [] option := by
    cases options with
    | none => exact List.not_mem_nil
    | some o => exact not_mem_option hopenBracket hcloseBracket (hoptions o rfl)
  unfold commandLine
  simp only [List.mem_append, not_or]
  exact ⟨hname, hoption, not_mem_group hopenBrace hcloseBrace hcontent, hbehind⟩

/-- A pattern without delimiters stands in one of the parts. -/
theorem not_infix_commandLine {p : Text} (hp : ∀ b ∈ delimiterBytes, b ∉ p)
    (hname : ¬ p <:+: name) (hoptions : ∀ o ∈ options, ¬ p <:+: o) (hcontent : ¬ p <:+: content)
    (hbehind : ¬ p <:+: behind) : ¬ p <:+: commandLine name options content behind := by
  cases options with
  | none =>
    rw [show commandLine name none content behind = name ++ group content ++ behind by
      simp [commandLine], infix_group_iff hp]
    simp only [not_or]
    exact ⟨hname, hcontent, hbehind⟩
  | some o =>
    rw [show commandLine name (some o) content behind = name ++ option o ++ group content ++ behind
      by simp [commandLine], infix_option_group_iff hp]
    simp only [not_or]
    exact ⟨hname, hoptions o rfl, hcontent, hbehind⟩

/-- The argument of a command at the head of a text, behind options without
braces. -/
theorem argumentOf?_commandLine (hoptions : ∀ o ∈ options, openBrace ∉ o)
    (hcontent : braces.Passes content) :
    argumentOf? name (commandLine name options content behind) = some ⟨content, behind, true⟩ := by
  have hoption : openBrace ∉ options.elim [] option := by
    cases options with
    | none => exact List.not_mem_nil
    | some o => exact not_mem_option (by decide) (by decide) (hoptions o rfl)
  have hdrop : (options.elim [] option ++ (group content ++ behind)).dropWhile (· ≠ openBrace)
      = group content ++ behind := by
    rw [List.dropWhile_append_of_pos]
    · unfold group
      rw [List.cons_append, List.cons_append, List.dropWhile_cons_of_neg (by decide)]
    · intro b hb
      rw [decide_eq_true_eq]
      rintro rfl
      exact hoption hb
  unfold argumentOf? commandLine
  rw [cut?_append]
  show braceArgument?
    ((options.elim [] option ++ (group content ++ behind)).dropWhile (· ≠ openBrace)) = _
  rw [hdrop, braceArgument?_group hcontent]

/-- An argument that closes on its line is collected from that line. -/
theorem collect_commandLine
    (htrim : Trimmed (commandLine name options content behind))
    (hoptions : ∀ o ∈ options, openBrace ∉ o) (hcontent : braces.Passes content)
    (hlf : lineFeed ∉ content) (below : List Text) :
    collect name (commandLine name options content behind :: below)
      = ⟨commandLine name options content behind, content, 1, true⟩ := by
  have hclosed : closedArgument? name (commandLine name options content behind)
      = some ⟨content, behind, true⟩ := by
    unfold closedArgument?
    rw [argumentOf?_commandLine hoptions hcontent]
    rfl
  show collect.go name (trim _) 1 below = _
  rw [htrim.both, collect_go_of_some hclosed, oneLine_eq_self hlf]

end

/-! ## §2. What is tried first. -/

namespace Line

variable {d : Dialect} {line : Text} {lines : List Text}

/-- A line that is trimmed, and neither blank nor a comment, is read as it is. -/
theorem read_eq_readTrimmed (hd : d.BuiltIn) {a : UInt8} (hhead : line.head? = some a)
    (ha : a ≠ percent) (htrim : Trimmed line) (rest : List Text) :
    read d line rest = readTrimmed d line (line :: rest) := by
  have hsilent : isSilent line = false := by
    unfold isSilent
    obtain ⟨t, rfl⟩ := List.head?_eq_some_iff.1 hhead
    simpa using ha
  unfold read
  simp only [htrim.right, htrim.both, hsilent, hd.readAs_eq, Option.getD_none]
  rfl

/-- A command is trimmed if nothing stands behind it. -/
theorem trimmed_commandLine {name content : Text} {options : Option Text}
    (hname : name.head? = some backslash) : Trimmed (commandLine name options content []) := by
  have hhead : (commandLine name options content []).head? = some backslash := by
    obtain ⟨u, rfl⟩ := List.head?_eq_some_iff.1 hname
    rfl
  have hlast : (commandLine name options content []).getLast? = some closeBrace := by
    rw [show commandLine name options content []
        = (name ++ options.elim [] option ++ openBrace :: content) ++ [closeBrace] by
      simp [commandLine, group]]
    exact List.getLast?_concat
  exact trimmed_of_ends hhead hlast (by decide) (by decide)

/-- A line that does not start with a command is not that command. -/
theorem ne_of_after?_eq_none {p : Text} (h : after? p line = none) : line ≠ p := by
  rintro rfl
  have hsome := after?_append line []
  rw [List.append_nil, h] at hsome
  cases hsome

/-- What a line is tried for before it is tried as an entry. -/
def openings : List Text := [chapterOpening, newPageCommand, Stamp.stampCommand, Paragraph.opening]

/-- What starts neither a heading, a seal nor a paragraph, and is no page end, is
tried as an entry. -/
theorem readTrimmed_of_none (hline : line ≠ []) (hopen : ∀ p ∈ openings, after? p line = none)
    {entry : Option Block} (hentry : Entry.ofLine? line = ⟨entry, []⟩) :
    readTrimmed d line lines =
      entry.elim (if line.head? = some backslash then readCommand d line lines
        else Reading.ofText (clean line)) Reading.ofBlock := by
  obtain ⟨hchapter, hpage, hstamp, hparagraph, -⟩ : _ ∧ _ ∧ _ ∧ _ ∧ _ := by
    simpa only [openings, List.forall_mem_cons] using hopen
  have htitle : chapterTitle? line = none := by
    unfold chapterTitle?
    rw [hchapter]
    rfl
  have hisStamp : Stamp.isStamp line = false := by
    unfold Stamp.isStamp
    rw [hstamp]
    rfl
  unfold readTrimmed
  rw [if_neg hline]
  simp only [htitle, if_neg (ne_of_after?_eq_none hpage), hisStamp, hparagraph, Bool.false_eq_true,
    if_false, hentry]
  cases entry with
  | none => rfl
  | some entry => rfl

/-- What is no entry, is read as words or as a command of the dialect. -/
theorem ofLine?_of_none (h : after? Entry.entryCommand line = none) :
    Entry.ofLine? line = ⟨none, []⟩ := by
  unfold Entry.ofLine? Entry.level?
  rw [h]
  rfl

/-- What does not start with a backslash is read as words. -/
theorem readTrimmed_words {a : UInt8} (hhead : line.head? = some a) (ha : a ≠ backslash) :
    readTrimmed d line lines = .ofText (clean line) := by
  obtain ⟨t, rfl⟩ := List.head?_eq_some_iff.1 hhead
  -- all that is tried starts with a backslash
  have hopen : ∀ p ∈ Entry.entryCommand :: openings, after? p (a :: t) = none := by
    intro p hp
    have hstart : ∀ p ∈ Entry.entryCommand :: openings, p.head? = some backslash := by
      decide +kernel
    obtain ⟨q, rfl⟩ := List.head?_eq_some_iff.1 (hstart p hp)
    rw [Option.eq_none_iff_forall_ne_some]
    intro u hu
    exact ha (List.cons.inj (after?_eq_some_iff.1 hu)).1
  have hcommand : ¬ (a :: t).head? = some backslash := fun h => ha (Option.some.inj h)
  rw [readTrimmed_of_none (List.cons_ne_nil a t) (fun p hp => hopen p (List.mem_cons_of_mem _ hp))
    (ofLine?_of_none (hopen _ List.mem_cons_self))]
  exact if_neg hcommand

/-- A command that is none of the base is looked up in the dialect. -/
theorem read_of_none (hd : d.BuiltIn) {rest : List Text} (hhead : line.head? = some backslash)
    (htrim : Trimmed line)
    (hopen : ∀ p ∈ Entry.entryCommand :: openings, after? p line = none) :
    read d line rest = readCommand d line (line :: rest) := by
  have hline : line ≠ [] := by
    rintro rfl
    cases hhead
  have hentry := ofLine?_of_none (hopen _ List.mem_cons_self)
  rw [read_eq_readTrimmed hd hhead (by decide) htrim,
    readTrimmed_of_none hline (fun p hp => hopen p (List.mem_cons_of_mem _ hp)) hentry]
  show (if line.head? = some backslash then readCommand d line (line :: rest) else _) = _
  rw [if_pos hhead]

/-- A command that the dialect knows, is read as the dialect says. -/
theorem read_known (hd : d.BuiltIn) {r : Reading} {rest : List Text}
    (hhead : line.head? = some backslash) (htrim : Trimmed line)
    (hopen : ∀ p ∈ Entry.entryCommand :: openings, after? p line = none)
    (hname : commandName line ≠ [])
    (hknown : d.readCommand (commandName line) line (line :: rest) = some r) :
    read d line rest = r := by
  rw [read_of_none hd hhead htrim hopen]
  unfold readCommand
  simp only [if_neg hname, hknown]

/-! ## §3. The kinds of lines. -/

variable {t : Text}

theorem beforeLast?_append_cons {b : UInt8} {u : Text} (hb : b ∉ u) (t : Text) :
    beforeLast? b (t ++ b :: u) = some t := by
  have hdrop : (t ++ b :: u).reverse.dropWhile (· != b) = b :: t.reverse := by
    rw [List.reverse_append, List.reverse_cons, List.append_assoc, List.dropWhile_append_of_pos]
    · exact List.dropWhile_cons_of_neg (by simp)
    · intro a ha
      rw [bne_iff_ne]
      rintro rfl
      exact hb (List.mem_reverse.1 ha)
  unfold beforeLast?
  rw [hdrop]
  exact congrArg some (List.reverse_reverse t)

/-- A heading is read up to its last brace. -/
theorem read_chapterLine (hd : d.BuiltIn) (h : Plain t) {behind : Text}
    (hbehind : closeBrace ∉ behind)
    (htrim : Trimmed (commandLine (command "chapter") none t behind)) (rest : List Text) :
    read d (commandLine (command "chapter") none t behind) rest = .ofBlock (.chapter t) := by
  have htitle : chapterTitle? (commandLine (command "chapter") none t behind) = some t := by
    unfold chapterTitle?
    rw [show commandLine (command "chapter") none t behind
        = chapterOpening ++ (t ++ closeBrace :: behind) by
      simp [commandLine, group, chapterOpening], after?_append]
    show ((beforeLast? closeBrace (t ++ closeBrace :: behind)).filter (· ≠ [])).map clean = _
    rw [beforeLast?_append_cons hbehind, Option.filter_some, if_pos (by simpa using h.nonempty)]
    exact congrArg some h.clean_eq
  rw [read_eq_readTrimmed hd rfl (by decide) htrim]
  unfold readTrimmed
  rw [if_neg (commandLine_ne_nil (by decide))]
  simp only [htitle]

theorem read_chapter (hd : d.BuiltIn) (h : Plain t) (rest : List Text) :
    read d (command "chapter" ++ group t) rest = .ofBlock (.chapter t) := by
  rw [← commandLine_none]
  exact read_chapterLine hd h List.not_mem_nil (trimmed_commandLine rfl) rest

theorem read_newPage (hd : d.BuiltIn) (rest : List Text) :
    read d newPageCommand rest = .ofBlock .newPage := by
  have htitle : chapterTitle? newPageCommand = none := by decide
  rw [read_eq_readTrimmed hd rfl (by decide)
    (trimmed_of_ends (b := ascii 'e') rfl rfl (by decide) (by decide))]
  unfold readTrimmed
  rw [if_neg (by decide)]
  simp only [htitle, if_true]

theorem read_plain (hd : d.BuiltIn) (h : Plain t) (rest : List Text) :
    read d t rest = .ofBlock (.text t 0) := by
  obtain ⟨a, u, rfl⟩ := List.exists_cons_of_ne_nil h.nonempty
  have hpercent : a ≠ percent := by
    rintro rfl
    exact h.noMarkup percent (by decide) List.mem_cons_self
  have hbackslash : a ≠ backslash := by
    rintro rfl
    exact h.backslash_not_mem List.mem_cons_self
  rw [read_eq_readTrimmed hd rfl hpercent h.solid.trimmed, readTrimmed_words rfl hbackslash,
    h.clean_eq]
  rfl

/-- A style wrapper is read as its words. -/
theorem read_styledLine (hd : d.BuiltIn) {style behind : Text} (hstyle : Plain style) (h : Plain t)
    (htrim : Trimmed (commandLine styleCommand (some style) t behind)) (rest : List Text) :
    read d (commandLine styleCommand (some style) t behind) rest = .ofBlock (.text t 0) := by
  have hopen : ∀ p ∈ Entry.entryCommand :: openings,
      after? p (commandLine styleCommand (some style) t behind) = none := by
    intro p hp
    have hother : ∀ p ∈ Entry.entryCommand :: openings,
        ¬ p <+: styleCommand ∧ ¬ styleCommand <+: p := by decide +kernel
    exact after?_append_eq_none (hother p hp).1 (hother p hp).2 _
  have hname : commandName (commandLine styleCommand (some style) t behind) = utf8 "样式" := rfl
  have hunknown : ∀ line lines, d.readCommand (utf8 "样式") line lines = none := by
    cases hd with
    | plain => exact fun _ _ => rfl
    | catalogue => exact fun _ _ => rfl
  have hafter : after? styleCommand (commandLine styleCommand (some style) t behind)
      = some (option style ++ (group t ++ behind)) := after?_append _ _
  have hstyled : styledText? (commandLine styleCommand (some style) t behind) = some t := by
    unfold styledText?
    rw [hafter, Option.bind_eq_bind, Option.bind_some,
      optionalArgument?_option hstyle.passes_brackets, Option.bind_eq_bind, Option.bind_some,
      braceArgument?_group h.passes_braces]
    exact congrArg some h.clean_eq
  rw [read_of_none hd rfl htrim hopen]
  unfold readCommand
  simp only [hname, hunknown, ite_self, hstyled]
  unfold Reading.ofText
  rw [if_neg h.nonempty]
  rfl

/-- No gloss stands inside plain words, so they are not flattened. -/
theorem flatten_plain (h : Plain t) : Entry.flatten t = t := by
  have hnone : cut? Entry.innerGloss t = none :=
    cut?_eq_none_iff.2 (not_infix_of_not_mem h.backslash_not_mem)
  unfold Entry.flatten
  rw [hnone]

/-- Words with a gloss behind them and more words behind it are flattened to the
words and those of the gloss. -/
theorem flatten_clean_gloss {options content behind : Text} (h : Plain t) (hoptions : Plain options)
    (hcontent : Plain content) (hbehind : Plain behind) :
    Entry.flatten
        (clean (commandLine (t ++ Entry.innerGloss) (some options) content behind))
      = t ++ content := by
  have hclean : clean (commandLine (t ++ Entry.innerGloss) (some options) content behind)
      = commandLine (t ++ Entry.innerGloss) (some options) content behind := by
    refine clean_eq_self fun m hm => ?_
    have hmark : ∀ m ∈ marks, ∀ b ∈ backslash :: delimiterBytes, b ∉ m := by decide +kernel
    have hname : ∀ m ∈ marks, ¬ m <:+: utf8 "夹注" := by decide +kernel
    refine not_infix_commandLine (fun b hb => hmark m hm b (List.mem_cons_of_mem _ hb)) ?_
      (fun o ho => Option.some.inj ho ▸ hoptions.noMark m hm) (hcontent.noMark m hm)
      (hbehind.noMark m hm)
    rw [show t ++ Entry.innerGloss = t ++ backslash :: utf8 "夹注" from rfl,
      infix_append_cons_iff (hmark m hm _ List.mem_cons_self), not_or]
    exact ⟨h.noMark m hm, hname m hm⟩
  have hcut : cut? Entry.innerGloss
      (commandLine (t ++ Entry.innerGloss) (some options) content behind)
      = some ⟨t, Entry.innerGloss, option options ++ (group content ++ behind)⟩ := by
    refine (cut?_eq_some_iff (by decide)).2 ⟨rfl, rfl, fun hin => ?_⟩
    -- an earlier command would start behind the words, and be too short
    exact absurd (infix_of_infix_append h.backslash_not_mem hin) (by decide +kernel)
  rw [hclean]
  unfold Entry.flatten
  simp only [hcut, skipOption_option hoptions.passes_brackets,
    braceArgument?_group hcontent.passes_braces, h.solid.trim_eq, hcontent.stripPunctuation_eq]

/-- An entry is read up to its last brace. -/
theorem read_entryLine (hd : d.BuiltIn) {level : Nat} (hlevel : level ≤ maxCount)
    {content behind : Text} (hne : content ≠ []) (hbehind : closeBrace ∉ behind)
    (htrim : Trimmed (commandLine Entry.entryCommand (some (natDecimal level)) content behind))
    (rest : List Text) :
    read d (commandLine Entry.entryCommand (some (natDecimal level)) content behind) rest
      = .ofBlock (.entry level (Entry.flatten (clean content))) := by
  have hafter : after? Entry.entryCommand
      (commandLine Entry.entryCommand (some (natDecimal level)) content behind)
      = some (option (natDecimal level) ++ (group content ++ behind)) := after?_append _ _
  have hwidest : Entry.widestGroup? (group content ++ behind) = some content := by
    rw [show group content ++ behind = openBrace :: (content ++ closeBrace :: behind) by
      simp [group]]
    show (beforeLast? closeBrace (content ++ closeBrace :: behind)).filter (· ≠ []) = _
    rw [beforeLast?_append_cons hbehind, Option.filter_some, if_pos (by simpa using hne)]
  have hlevel? : Entry.level?
      (commandLine Entry.entryCommand (some (natDecimal level)) content behind)
      = some (natDecimal level, group content ++ behind) := by
    unfold Entry.level?
    rw [hafter]
    show ((brackets.argument? (option (natDecimal level) ++ _)).bind _).bind _ = _
    rw [show brackets.argument? (option (natDecimal level) ++ (group content ++ behind))
        = some ⟨natDecimal level, group content ++ behind, true⟩ from
      Delimiters.argument?_append (by decide) (plain_natDecimal level).passes_brackets _]
    show (if isNumeral (natDecimal level) then _ else _) = _
    rw [isNumeral_natDecimal]
    rfl
  have hentry : Entry.ofLine?
      (commandLine Entry.entryCommand (some (natDecimal level)) content behind)
      = ⟨some (.entry level (Entry.flatten (clean content))), []⟩ := by
    unfold Entry.ofLine?
    rw [hlevel?]
    simp only [count?_natDecimal hlevel, hwidest, Option.map_some]
  have hopen : ∀ p ∈ openings,
      after? p (commandLine Entry.entryCommand (some (natDecimal level)) content behind)
        = none := by
    intro p hp
    have hother : ∀ p ∈ openings, ¬ p <+: Entry.entryCommand ∧ ¬ Entry.entryCommand <+: p := by
      decide +kernel
    exact after?_append_eq_none (hother p hp).1 (hother p hp).2 _
  rw [read_eq_readTrimmed hd rfl (by decide) htrim,
    readTrimmed_of_none (commandLine_ne_nil (by decide)) hopen hentry]
  rfl

theorem read_entry (hd : d.BuiltIn) {level : Nat} (hlevel : level ≤ maxCount) (h : Plain t)
    (rest : List Text) :
    read d (Entry.entryCommand ++ option (decimal level) ++ group t) rest
      = .ofBlock (.entry level t) := by
  rw [decimal_natCast, ← commandLine_some,
    read_entryLine hd hlevel h.nonempty List.not_mem_nil (trimmed_commandLine rfl), h.clean_eq,
    flatten_plain h]

end Line

end FolioGrid
