/-
  FolioGrid.Proofs.GridMarkup.Decoding
  ────────────────────────────────
  **COLUMNS THAT ARE READ BACK.**

  The markup of a document says which columns it was made of.  This needs columns
  whose words hold no markup of their own, and that are written in the one way the
  writer would leave them (`Normal`): the first heading in front, and no page end
  where a page ends anyway.

      columnEntries_inj — what stands in front of other entries gives its column
      content_inj       — and the content of a document all its columns

  Main result: `document_inj`.
-/
import FolioGrid.Proofs.GridMarkup.Content
import FolioGrid.Proofs.Markup.Argument
import FolioGrid.Proofs.Text.Lines
import FolioGrid.Proofs.Text.Numeral

namespace FolioGrid

open FolioGrid.Text FolioGrid.Markup FolioGrid.GridMarkup

/-! ## §1. Columns without markup of their own. -/

/-- Words without markup: they hold no backslash, brace or line feed. -/
def Bare (t : Text) : Prop := ∀ b ∈ t, b ∉ [backslash, openBrace, closeBrace, lineFeed]

instance : DecidablePred Bare := fun t =>
  inferInstanceAs (Decidable (∀ b ∈ t, b ∉ [backslash, openBrace, closeBrace, lineFeed]))

theorem Bare.not_mem {t : Text} (h : Bare t) {b : UInt8}
    (hb : b ∈ [backslash, openBrace, closeBrace, lineFeed]) : b ∉ t :=
  fun hmem => h b hmem hb

/-- A column whose words are bare; a seal is the command that stamps it, on one line. -/
def Column.Legible : Column → Prop
  | .chapter title => Bare title
  | .newPage => True
  | .stamp markup => command "印章" <+: markup ∧ lineFeed ∉ markup
  | .single t _ => t ≠ [] ∧ Bare t
  | .dual d => Bare d.right ∧ Bare d.left

instance : DecidablePred Column.Legible := fun c =>
  match c with
  | .chapter title => inferInstanceAs (Decidable (Bare title))
  | .newPage => inferInstanceAs (Decidable True)
  | .stamp markup =>
    inferInstanceAs (Decidable (command "印章" <+: markup ∧ lineFeed ∉ markup))
  | .single t _ => inferInstanceAs (Decidable (t ≠ [] ∧ Bare t))
  | .dual d => inferInstanceAs (Decidable (Bare d.right ∧ Bare d.left))

namespace GridMarkup

/-- Columns as the markup of a document tells them. -/
structure Normal (columns : List Column) : Prop where
  /-- No column holds markup of its own. -/
  legible : ∀ c ∈ columns, c.Legible
  /-- The first heading, if there is one, stands in front. -/
  first : ∀ i ∈ columns.findIdx? Column.isChapter, i = 0
  /-- A page ends once, and not in front of a heading. -/
  paged : columns.IsChain fun a b => a = .newPage → b.turnsPage = false

instance : DecidablePred Normal := fun columns =>
  decidable_of_iff
    ((∀ c ∈ columns, c.Legible) ∧ (∀ i ∈ columns.findIdx? Column.isChapter, i = 0)
      ∧ columns.IsChain fun a b => a = .newPage → b.turnsPage = false)
    ⟨fun h => ⟨h.1, h.2.1, h.2.2⟩, fun h => ⟨h.legible, h.first, h.paged⟩⟩

/-! ## §2. The parts of an entry. -/

variable {c c' : Column} {columns columns' : List Column} {t u x y : Text} {i j : Int}

theorem closeBracket_not_mem_decimal (i : Int) : closeBracket ∉ decimal i :=
  not_mem_decimal (by decide) (by decide) i

/-- An option is read up to its bracket. -/
theorem option_append_inj (ht : closeBracket ∉ t) (hu : closeBracket ∉ u)
    (h : option t ++ x = option u ++ y) : t = u ∧ x = y := by
  unfold option at h
  simp only [List.append_assoc, List.cons_append, List.cons.injEq, true_and,
    List.nil_append] at h
  exact append_cons_inj ht hu h

/-- **An indent is told by its mark**: the bracket that closes it does not stand in a
number. -/
theorem indentMark_append_inj (h : indentMark i ++ x = indentMark j ++ y) : i = j ∧ x = y := by
  unfold indentMark at h
  rw [List.append_assoc, List.append_assoc, List.append_cancel_left_eq] at h
  obtain ⟨hdecimal, hrest⟩ := option_append_inj (closeBracket_not_mem_decimal i)
    (closeBracket_not_mem_decimal j) h
  exact ⟨decimal_injective hdecimal, hrest⟩

/-- Bare words are read up to the brace that closes their group. -/
theorem group_append_inj (ht : Bare t) (hu : Bare u) (h : group t ++ x = group u ++ y) :
    t = u ∧ x = y := by
  unfold group at h
  simp only [List.append_assoc, List.cons_append, List.cons.injEq, true_and,
    List.nil_append] at h
  exact append_cons_inj (ht.not_mem (by decide)) (hu.not_mem (by decide)) h

/-- One half of a dual column tells whether it has an indent of its own. -/
theorem half_append_inj {name : String} {indent indent' : Option Int} (ht : Bare t) (hu : Bare u)
    (h : half name indent t ++ x = half name indent' u ++ y) :
    indent = indent' ∧ t = u ∧ x = y := by
  have hbracket : ∀ i, closeBracket ∉ utf8 "indent=" ++ decimal i := by
    intro i
    rw [List.mem_append, not_or]
    exact ⟨by decide +kernel, closeBracket_not_mem_decimal i⟩
  unfold half at h
  simp only [List.append_assoc, List.append_cancel_left_eq] at h
  -- behind the name stands a bracket or a brace
  cases indent with
  | none =>
    cases indent' with
    | none => exact ⟨rfl, group_append_inj ht hu h⟩
    | some j => exact absurd (List.cons.inj h).1 (by decide)
  | some i =>
    cases indent' with
    | none => exact absurd (List.cons.inj h).1 (by decide)
    | some j =>
      obtain ⟨hkey, hrest⟩ := option_append_inj (hbracket i) (hbracket j) h
      have hindent : i = j := decimal_injective (List.append_cancel_left hkey)
      exact ⟨congrArg some hindent, group_append_inj ht hu hrest⟩

/-- The halves of a dual column, with their indents, are told by its entry. -/
theorem dual_inj {d e : DualColumn} (hd : Bare d.right ∧ Bare d.left)
    (he : Bare e.right ∧ Bare e.left) (h : dual d = dual e) : d = e := by
  unfold dual at h
  simp only [List.append_assoc] at h
  obtain ⟨hindent, hbody⟩ := indentMark_append_inj h
  simp only [group, List.append_cancel_left_eq, List.cons_append, List.cons.injEq, true_and,
    List.append_assoc] at hbody
  obtain ⟨hrightIndent, hright, hrest⟩ := half_append_inj hd.1 he.1 hbody
  obtain ⟨hleftIndent, hleft, -⟩ := half_append_inj hd.2 he.2 hrest
  cases d
  cases e
  simp_all

/-! ## §3. Entries. -/

/-- The byte behind the backslash with which an entry starts, if it starts with one. -/
def tag (entry : Text) : Option UInt8 :=
  if entry.head? = some backslash then entry[1]? else none

/-- The tag of an entry of a column: it tells the kinds of columns apart, but for
columns that are indented. -/
def columnTag : Column → Option UInt8
  | .chapter _ => tag contentEnd
  | .newPage => tag pageBreak
  | .stamp _ => tag (command "印章")
  | .single _ indent => if indent = 0 then none else tag (command "缩进")
  | .dual _ => tag (command "缩进")

/-- Bare words begin no command, so they have no tag. -/
theorem tag_eq_none (ht : Bare t) : tag t = none := by
  refine if_neg ?_
  intro h
  exact ht.not_mem (by decide) (List.mem_of_head? h)

theorem tag_stamp {markup : Text} (h : command "印章" <+: markup) :
    tag (stamp markup) = tag (command "印章") := by
  obtain ⟨rest, rfl⟩ := h
  rfl

/-- Single columns have a tag only if they are indented. -/
theorem tag_single (ht : Bare t) (indent : Int) :
    tag (single t indent) = if indent = 0 then none else tag (command "缩进") := by
  unfold single
  split
  · exact tag_eq_none ht
  · rfl

/-- A legible column is none of the marks between columns. -/
theorem unmistakable_of_legible (h : c.Legible) : Unmistakable c := by
  cases c with
  | single t indent =>
    intro hmark
    have htags : ∀ e ∈ contentMarks, tag e ≠ none ∧ tag e ≠ tag (command "缩进") := by
      decide +kernel
    have htag := tag_single h.2 indent
    by_cases hindent : indent = 0
    · exact (htags _ hmark).1 (by rw [htag, if_pos hindent])
    · exact (htags _ hmark).2 (by rw [htag, if_neg hindent])
  | _ => trivial

/-- A column has an entry, with the column's tag. -/
theorem tag_head_columnEntries (h : c.Legible) :
    (columnEntries c).head?.map tag = some (columnTag c) := by
  cases c with
  | chapter title => rfl
  | newPage => rfl
  | stamp markup => exact congrArg some (tag_stamp h.1)
  | single t indent => exact congrArg some (tag_single h.2 indent)
  | dual d => rfl

/-- Columns in front of the same entries have the same tag. -/
theorem columnTag_eq {l l' : List Text} (h : c.Legible) (h' : c'.Legible)
    (heq : columnEntries c ++ l = columnEntries c' ++ l') : columnTag c = columnTag c' := by
  have hhead := congrArg List.head? heq
  rw [List.head?_append_of_ne_nil _ (columnEntries_ne_nil c),
    List.head?_append_of_ne_nil _ (columnEntries_ne_nil c')] at hhead
  rw [← Option.some.injEq, ← tag_head_columnEntries h, ← tag_head_columnEntries h', hhead]

theorem backslash_mem_indentMark (i : Int) : backslash ∈ indentMark i := List.mem_cons_self

/-- Words at the margin hold no backslash, with which an indent starts. -/
theorem bare_ne_indentMark_append (ht : Bare t) (i : Int) (x : Text) : t ≠ indentMark i ++ x := by
  rintro rfl
  exact ht.not_mem (by decide) (List.mem_append_left x (backslash_mem_indentMark i))

/-- A single column is told by its entry. -/
theorem single_inj (ht : Bare t) (hu : Bare u) (h : single t i = single u j) : t = u ∧ i = j := by
  unfold single at h
  split at h
  · next hi =>
    split at h
    · next hj => exact ⟨h, hi.trans hj.symm⟩
    · exact absurd h (bare_ne_indentMark_append ht j _)
  · split at h
    · exact absurd h.symm (bare_ne_indentMark_append hu i _)
    · obtain ⟨hij, hrest⟩ := indentMark_append_inj h
      exact ⟨(List.cons.inj hrest).2, hij⟩

/-- An indent is followed by a blank in front of words, and by a command in front of
two halves. -/
theorem single_ne_dual (ht : Bare t) (i : Int) (d : DualColumn) : single t i ≠ dual d := by
  have hdual : dual d = indentMark d.indent ++ (command "双列"
      ++ group (half "右小列" d.rightIndent d.right ++ half "左小列" d.leftIndent d.left)) :=
    List.append_assoc _ _ _
  rw [hdual]
  unfold single
  split
  · exact bare_ne_indentMark_append ht _ _
  · intro h
    exact absurd (List.cons.inj (indentMark_append_inj h).2).1 (by decide)

/-- The marks differ at the byte behind the backslash. -/
theorem tag_marks :
    tag contentEnd = some 0x65 ∧ tag pageBreak = some 0xE6
      ∧ tag (command "印章") = some 0xE5 ∧ tag (command "缩进") = some 0xE7 := by
  decide +kernel

/-- **What stands in front of other entries gives its column.** -/
theorem columnEntries_inj {l l' : List Text} (h : c.Legible) (h' : c'.Legible)
    (heq : columnEntries c ++ l = columnEntries c' ++ l') : c = c' ∧ l = l' := by
  have htag := columnTag_eq h h' heq
  cases c with
  | chapter title =>
    cases c' with
    | chapter title' =>
      simp only [columnEntries, heading, group, List.cons_append, List.cons.injEq, true_and,
        List.append_cancel_left_eq, List.append_cancel_right_eq, List.nil_append] at heq
      exact ⟨congrArg Column.chapter heq.1, heq.2⟩
    | _ => simp [columnTag, tag_marks] at htag
  | newPage =>
    cases c' with
    | newPage => exact ⟨rfl, (List.cons.inj heq).2⟩
    | _ => simp [columnTag, tag_marks] at htag
  | stamp markup =>
    cases c' with
    | stamp markup' =>
      obtain ⟨hentry, hrest⟩ := List.cons.inj heq
      exact ⟨congrArg Column.stamp (List.append_cancel_right hentry), hrest⟩
    | _ => simp [columnTag, tag_marks] at htag
  | single t i =>
    cases c' with
    | single u j =>
      obtain ⟨hentry, hrest⟩ := List.cons.inj heq
      obtain ⟨rfl, rfl⟩ := single_inj h.2 h'.2 hentry
      exact ⟨rfl, hrest⟩
    | dual d => exact absurd (List.cons.inj heq).1 (single_ne_dual h.2 i d)
    | _ => simp [columnTag, tag_marks] at htag
  | dual d =>
    cases c' with
    | single t i => exact absurd (List.cons.inj heq).1.symm (single_ne_dual h'.2 i d)
    | dual e =>
      obtain ⟨hentry, hrest⟩ := List.cons.inj heq
      exact ⟨congrArg Column.dual (dual_inj h h' hentry), hrest⟩
    | _ => simp [columnTag, tag_marks] at htag

/-- Legible columns are told one by one by the entries of all of them. -/
theorem flatMap_columnEntries_inj (h : ∀ c ∈ columns, c.Legible) (h' : ∀ c ∈ columns', c.Legible)
    (heq : columns.flatMap columnEntries = columns'.flatMap columnEntries) :
    columns = columns' := by
  induction columns generalizing columns' with
  | nil =>
    cases columns' with
    | nil => rfl
    | cons c' rest' =>
      rw [List.flatMap_nil, List.flatMap_cons, List.nil_eq_append_iff] at heq
      exact absurd heq.1 (columnEntries_ne_nil c')
  | cons c rest ih =>
    cases columns' with
    | nil =>
      rw [List.flatMap_nil, List.flatMap_cons, List.append_eq_nil_iff] at heq
      exact absurd heq.1 (columnEntries_ne_nil c)
    | cons c' rest' =>
      rw [List.flatMap_cons, List.flatMap_cons] at heq
      obtain ⟨rfl, hrest⟩ :=
        columnEntries_inj (h c List.mem_cons_self) (h' c' List.mem_cons_self) heq
      rw [ih (fun a ha => h a (List.mem_cons_of_mem c ha))
        (fun a ha => h' a (List.mem_cons_of_mem c ha)) hrest]

/-! ## §4. Documents. -/

/-- Columns in which no page ends twice are tidied already. -/
theorem tidy_eq_self
    (h : columns.IsChain fun a b => a = .newPage → b.turnsPage = false) :
    tidy columns = columns := by
  induction columns with
  | nil => rfl
  | cons c rest ih =>
    rw [List.isChain_cons] at h
    rw [tidy_cons, ih h.2]
    refine if_neg ?_
    rintro ⟨hc, hturns⟩
    cases rest with
    | nil => cases hturns
    | cons b rest =>
      have hb : b.turnsPage = false := h.1 b rfl hc
      exact absurd hturns (by simp [hb])

/-- Without a heading there is no first one. -/
theorem firstTitle?_of_no_chapter (h : ∀ c ∈ columns, c.isChapter = false) :
    firstTitle? columns = none := by
  unfold firstTitle?
  rw [List.findSome?_eq_none_iff]
  intro c hc
  cases c with
  | chapter title => cases h _ hc
  | _ => rfl

/-- Normal columns are their first heading, if there is one, and the others. -/
theorem Normal.eq_title_append (h : Normal columns) :
    columns = ((firstTitle? columns).map Column.chapter).toList ++ withoutTitle columns := by
  cases columns with
  | nil => rfl
  | cons c rest =>
    by_cases hc : c.isChapter = true
    · cases c with
      | chapter title => rfl
      | _ => cases hc
    · have hfirst := h.first
      rw [List.findIdx?_cons, if_neg hc] at hfirst
      have hrest : ∀ b ∈ rest, b.isChapter = false := by
        rw [← List.findIdx?_eq_none_iff]
        cases hfind : rest.findIdx? Column.isChapter with
        | none => rfl
        | some i => exact absurd (hfirst (i + 1) (by rw [hfind]; rfl)) (Nat.succ_ne_zero i)
      have hall : ∀ b ∈ c :: rest, b.isChapter = false := by
        intro b hb
        rcases List.mem_cons.1 hb with rfl | hb
        · exact Bool.eq_false_iff.2 hc
        · exact hrest b hb
      rw [firstTitle?_of_no_chapter hall]
      exact (List.eraseP_of_forall_not fun b hb => by simp [hall b hb]).symm

/-- Normal columns have no page end that is taken back. -/
theorem Normal.tidy_withoutTitle (h : Normal columns) :
    tidy (withoutTitle columns) = withoutTitle columns := by
  have hchain := h.paged
  rw [h.eq_title_append] at hchain
  exact tidy_eq_self hchain.right_of_append

theorem lineFeed_not_mem_decimal (i : Int) : lineFeed ∉ decimal i :=
  not_mem_decimal (by decide) (by decide) i

theorem lineFeed_not_mem_group (h : lineFeed ∉ t) : lineFeed ∉ group t :=
  not_mem_group (by decide) (by decide) h

/-- The mark of an indent stands on one line. -/
theorem lineFeed_not_mem_indentMark (i : Int) : lineFeed ∉ indentMark i := by
  unfold indentMark
  rw [List.mem_append, not_or]
  exact ⟨by decide +kernel,
    not_mem_option (by decide) (by decide) (lineFeed_not_mem_decimal i)⟩

/-- So does a half whose words do. -/
theorem lineFeed_not_mem_half {name : String} (hname : lineFeed ∉ command name)
    (indent : Option Int) (h : lineFeed ∉ t) : lineFeed ∉ half name indent t := by
  have hkey : lineFeed ∉ utf8 "indent=" := by decide +kernel
  have hoptions : lineFeed ∉ indent.elim [] fun i => option (utf8 "indent=" ++ decimal i) := by
    cases indent with
    | none => exact List.not_mem_nil
    | some i =>
      refine not_mem_option (by decide) (by decide) ?_
      rw [List.mem_append, not_or]
      exact ⟨hkey, lineFeed_not_mem_decimal i⟩
  unfold half
  simp [hname, hoptions, lineFeed_not_mem_group h]

/-- The entries of a legible column are lines. -/
theorem lineFeed_not_mem_of_mem_columnEntries (h : c.Legible) :
    ∀ e ∈ columnEntries c, lineFeed ∉ e := by
  have hbare : ∀ {t : Text}, Bare t → lineFeed ∉ t := fun ht => ht.not_mem (by decide)
  cases c with
  | chapter title =>
    have hmarks : lineFeed ∉ contentEnd ∧ lineFeed ∉ newPage ∧ lineFeed ∉ contentBegin
        ∧ lineFeed ∉ command "chapter" := by decide +kernel
    have htitle : lineFeed ∉ heading title := by
      simp [heading, hmarks, lineFeed_not_mem_group (hbare h)]
    simp [columnEntries, hmarks, htitle]
  | newPage => decide +kernel
  | stamp markup =>
    have hpercent : lineFeed ≠ percent := by decide
    simp [columnEntries, stamp, h.2, hpercent]
  | single t i =>
    have hblank : lineFeed ≠ ascii ' ' := by decide
    have hsingle : lineFeed ∉ single t i := by
      unfold single
      split
      · exact hbare h.2
      · simp [hbare h.2, hblank, lineFeed_not_mem_indentMark]
    simp [columnEntries, hsingle]
  | dual d =>
    have hcommand : lineFeed ∉ command "双列" := by decide +kernel
    have hright : lineFeed ∉ half "右小列" d.rightIndent d.right :=
      lineFeed_not_mem_half (by decide +kernel) _ (hbare h.1)
    have hleft : lineFeed ∉ half "左小列" d.leftIndent d.left :=
      lineFeed_not_mem_half (by decide +kernel) _ (hbare h.2)
    have hbody := lineFeed_not_mem_group (t := half "右小列" d.rightIndent d.right
      ++ half "左小列" d.leftIndent d.left) (by simp [hright, hleft])
    simp [columnEntries, dual, hcommand, hbody, lineFeed_not_mem_indentMark]

/-- The entries that the columns give: the first heading, and the environments. -/
def bookEntries (columns : List Column) : List Text :=
  ((firstTitle? columns).map heading).toList ++ contentEntries columns

/-- So normal columns are written one after another, as they are. -/
theorem Normal.contentEntries_eq (h : Normal columns) :
    contentEntries columns = contentBegin :: (withoutTitle columns).flatMap columnEntries := by
  rw [GridMarkup.contentEntries_eq fun c hc => unmistakable_of_legible (h.legible c hc),
    h.tidy_withoutTitle]

/-- No entry of a normal book runs over its line, so lines are entries. -/
theorem Normal.lineFeed_not_mem (h : Normal columns) : ∀ e ∈ bookEntries columns, lineFeed ∉ e := by
  intro e he
  have hbegin : lineFeed ∉ contentBegin := by decide +kernel
  unfold bookEntries at he
  rw [h.contentEntries_eq, List.mem_append, List.mem_cons] at he
  rcases he with he | rfl | he
  · -- the first heading is among the entries of its own column
    obtain ⟨title, htitle, rfl⟩ := Option.map_eq_some_iff.1 (Option.mem_toList.1 he)
    have hmem : Column.chapter title ∈ columns := by
      rw [h.eq_title_append, htitle]
      exact List.mem_cons_self
    exact lineFeed_not_mem_of_mem_columnEntries (h.legible _ hmem) _ (by simp [columnEntries])
  · exact hbegin
  · obtain ⟨c, hc, he⟩ := List.mem_flatMap.1 he
    exact lineFeed_not_mem_of_mem_columnEntries (h.legible c (withoutTitle_subset columns hc)) e he

/-- **The content of a document gives its columns.** -/
theorem content_inj (h : Normal columns) (h' : Normal columns')
    (heq : bookEntries columns = bookEntries columns') : columns = columns' := by
  have hbegin : ∀ title, contentBegin ≠ heading title := by
    intro title hbegin
    exact heading_not_mem title (hbegin ▸ by decide)
  have hbelow : ∀ {c : Column}, c ∈ withoutTitle columns → c.Legible :=
    fun hc => h.legible _ (withoutTitle_subset columns hc)
  have hbelow' : ∀ {c : Column}, c ∈ withoutTitle columns' → c.Legible :=
    fun hc => h'.legible _ (withoutTitle_subset columns' hc)
  unfold bookEntries at heq
  rw [h.contentEntries_eq, h'.contentEntries_eq] at heq
  rw [h.eq_title_append, h'.eq_title_append]
  cases htitle : firstTitle? columns with
  | none =>
    cases htitle' : firstTitle? columns' with
    | none =>
      rw [htitle, htitle'] at heq
      exact flatMap_columnEntries_inj (fun _ => hbelow) (fun _ => hbelow') (List.cons.inj heq).2
    | some title' =>
      rw [htitle, htitle'] at heq
      exact absurd (List.cons.inj heq).1 (hbegin title')
  | some title =>
    cases htitle' : firstTitle? columns' with
    | none =>
      rw [htitle, htitle'] at heq
      exact absurd (List.cons.inj heq).1.symm (hbegin title)
    | some title' =>
      rw [htitle, htitle'] at heq
      obtain ⟨hheading, hrest⟩ := List.cons.inj heq
      have htitles : title = title' := by
        simpa [heading, group] using hheading
      rw [flatMap_columnEntries_inj (fun _ => hbelow) (fun _ => hbelow') (List.cons.inj hrest).2,
        htitles]

theorem Normal.bookEntries_ne_nil (h : Normal columns) : bookEntries columns ≠ [] := by
  unfold bookEntries
  rw [h.contentEntries_eq]
  simp

/-- A document is what its columns give, between lines that do not depend on them. -/
theorem Normal.document_eq (h : Normal columns) (s : Settings) (d : Dialect)
    (before preserved footer : Text) :
    document s d before preserved columns footer
      = joinLines ([preamble s d before, []] ++ frontEntries preserved) ++ lineFeed
        :: (joinLines (bookEntries columns)
          ++ lineFeed :: joinLines [[], contentEnd, footerEntry footer, []]) := by
  rw [← joinLines_append h.bookEntries_ne_nil (List.cons_ne_nil _ _),
    ← joinLines_append (by simp) (by simp)]
  simp [document, documentEntries, bookEntries]

/-- **A document gives its columns.** -/
theorem document_inj (s : Settings) (d : Dialect) (before preserved footer : Text)
    (h : Normal columns) (h' : Normal columns') :
    document s d before preserved columns footer = document s d before preserved columns' footer
      ↔ columns = columns' := by
  constructor
  · intro heq
    rw [h.document_eq, h'.document_eq, List.append_cancel_left_eq, List.cons.injEq,
      List.append_cancel_right_eq] at heq
    have hbook : joinLines (bookEntries columns) = joinLines (bookEntries columns') := heq.2
    refine content_inj h h' ?_
    rw [← lines_joinLines h.bookEntries_ne_nil h.lineFeed_not_mem, hbook,
      lines_joinLines h'.bookEntries_ne_nil h'.lineFeed_not_mem]
  · rintro rfl
    rfl

/-- A seal, a chapter's words and a gloss whose left half has the given indent. -/
def glossedPages (leftIndent : Option Int) : List Column :=
  [.chapter (utf8 "經部"), .single (utf8 "易類") 0, .newPage,
    .stamp (command "印章" ++ group (utf8 "甲.png")), .chapter (utf8 "史部"),
    .dual { indent := 2, right := utf8 "臣等", left := utf8 "御纂", leftIndent := leftIndent }]

/-- No indent, and an indent of zero, are told apart. -/
theorem document_glossedPages :
    document .standard {} [] [] (glossedPages none) []
      ≠ document .standard {} [] [] (glossedPages (some 0)) [] := by
  intro heq
  have hsame := (document_inj .standard {} [] [] []
    (by decide +kernel : Normal (glossedPages none))
    (by decide +kernel : Normal (glossedPages (some 0)))).1 heq
  exact absurd hsame (by decide)

end GridMarkup

end FolioGrid
