/-
  FolioGrid.Proofs.Document.Balance
  ────────────────────────────────
  **GROUPS ON THE GRID.**

  A run of glosses is cut into halves of columns glyph by glyph, without a look
  at braces, so a group may be open where a half ends.  But no brace is lost or
  invented, and no group is left open behind the last column of a run:

      Column.halves — the texts of a dual column, in the order of reading
      GroupsClose   — halves that are balanced together, run by run

  Main result: `groupsClose_of_convert`.
-/
import FolioGrid.Proofs.Dialect.Balance
import FolioGrid.Proofs.Document.Items

namespace FolioGrid

open FolioGrid.Text FolioGrid.Markup

/-! ## §1. Halves of columns. -/

/-- The texts of a dual column, in the order of reading; other columns have none. -/
def Column.halves : Column → List Text
  | .dual d => [d.right, d.left]
  | _ => []

/-- Whether a column is dual. -/
def Column.isDual : Column → Bool
  | .dual _ => true
  | _ => false

variable {s : Settings} {columns : List Column}

/-- Only dual columns have halves. -/
theorem Column.halves_of_not_dual {c : Column} (h : c.isDual = false) : c.halves = [] := by
  cases c with
  | dual d => cases h
  | _ => rfl

/-- So columns none of which is dual have none. -/
theorem flatMap_halves_of_not_dual (h : ∀ c ∈ columns, c.isDual = false) :
    columns.flatMap Column.halves = [] :=
  List.flatMap_eq_nil_iff.2 fun c hc => Column.halves_of_not_dual (h c hc)

/-- Columns in which every group that is opened in a run of dual columns is closed
in that run. -/
structure GroupsClose (columns : List Column) : Prop where
  /-- All halves are balanced together. -/
  whole : braces.Balanced (columns.flatMap Column.halves).flatten
  /-- So are those in front of any column that is not dual. -/
  between : ∀ above c below, columns = above ++ c :: below → c.isDual = false →
    braces.Balanced (above.flatMap Column.halves).flatten

/-- Columns without halves leave no group open. -/
theorem GroupsClose.of_not_dual (h : ∀ c ∈ columns, c.isDual = false) : GroupsClose columns where
  whole := by
    rw [flatMap_halves_of_not_dual h]
    exact .nil braces_ne
  between := by
    rintro above c below rfl -
    rw [flatMap_halves_of_not_dual fun c hc => h c (List.mem_append_left _ hc)]
    exact .nil braces_ne

/-- A run of dual columns has no place between, so it closes its groups once its halves do
so together. -/
theorem GroupsClose.of_dual (h : ∀ c ∈ columns, c.isDual = true)
    (hwhole : braces.Balanced (columns.flatMap Column.halves).flatten) : GroupsClose columns where
  whole := hwhole
  between := by
    rintro above c below rfl hc
    rw [h c (by simp)] at hc
    cases hc

/-- Columns that close their groups can stand behind one another. -/
theorem GroupsClose.append {more : List Column} (h : GroupsClose columns)
    (hmore : GroupsClose more) : GroupsClose (columns ++ more) where
  whole := by
    rw [List.flatMap_append, List.flatten_append]
    exact h.whole.append braces_ne hmore.whole
  between := by
    intro above c below hsplit hc
    -- the column stands among the first ones or among the others
    rcases List.append_eq_append_iff.1 hsplit with ⟨first, rfl, hrest⟩ | ⟨rest, hfirst, hrest⟩
    · rw [List.flatMap_append, List.flatten_append]
      exact h.whole.append braces_ne (hmore.between first c below hrest hc)
    · cases rest with
      | nil =>
        rw [List.append_nil] at hfirst
        rw [← hfirst]
        exact h.whole
      | cons c' rest =>
        obtain ⟨rfl, -⟩ := List.cons.inj hrest
        exact h.between above c rest hfirst hc

/-- So can any number of them. -/
theorem GroupsClose.flatten {parts : List (List Column)} (h : ∀ part ∈ parts, GroupsClose part) :
    GroupsClose parts.flatten := by
  induction parts with
  | nil => exact .of_not_dual (by simp)
  | cons part parts ih =>
    rw [List.flatten_cons]
    exact (h part List.mem_cons_self).append (ih fun p hp => h p (List.mem_cons_of_mem part hp))

/-! ## §2. The layout. -/

/-- Running text is not laid out in dual columns. -/
theorem not_dual_of_mem_lineColumns {t : Text} {indent : Int}
    (h : lineColumns s t indent = .ok columns) : ∀ c ∈ columns, c.isDual = false := by
  intro c hc
  obtain ⟨rfl, -⟩ := single_of_mem_lineColumns h c hc
  rfl

/-- Nor is a paragraph. -/
theorem Paragraph.not_dual_of_mem_columns {p : Paragraph} (h : p.columns s = .ok columns) :
    ∀ c ∈ columns, c.isDual = false := by
  intro c hc
  obtain ⟨gs, i, rfl, -⟩ := Paragraph.single_of_mem_columns h c hc
  rfl

/-- All that a dual column shows is its halves. -/
theorem Column.items_of_dual {c : Column} (h : c.isDual = true) :
    c.items = Item.ofText c.halves.flatten := by
  cases c with
  | dual d => simp [Column.items, Column.halves, Item.ofText]
  | _ => cases h

/-- Only dual columns come from glosses, and their halves are the glosses' texts. -/
theorem halves_runColumns {run : List Gloss} (hrun : ∀ a ∈ run, a.Coherent)
    (h : runColumns s run = .ok columns) :
    (∀ c ∈ columns, c.isDual = true)
      ∧ (columns.flatMap Column.halves).flatten = run.flatMap (·.text) := by
  have hitems := items_runColumns hrun h
  obtain ⟨halves, hpack, h⟩ := bind_eq_ok.1 h
  cases h
  have hdual : ∀ c ∈ (pair halves).map Column.dual, c.isDual = true := by
    intro c hc
    obtain ⟨d, -, rfl⟩ := List.mem_map.1 hc
    rfl
  refine ⟨hdual, ?_⟩
  -- both have the same items, which are bytes
  have hitem : Function.Injective Item.ofText :=
    List.map_injective_iff.2 fun b b' hb => Item.byte.inj hb
  apply hitem
  calc Item.ofText (((pair halves).map Column.dual).flatMap Column.halves).flatten
      = ((pair halves).map Column.dual).flatMap fun c => Item.ofText c.halves.flatten := by
        rw [Item.flatMap_ofText, List.flatten_eq_flatMap, List.flatMap_assoc]
        simp only [← List.flatten_eq_flatMap]
    _ = ((pair halves).map Column.dual).flatMap Column.items :=
        List.flatMap_congr fun c hc => (Column.items_of_dual (hdual c hc)).symm
    _ = Item.ofText (run.flatMap (·.text)) := by rw [hitems, Item.flatMap_ofText]

/-- What one stretch of blocks is laid out as. -/
theorem Stretch.groupsClose_columns {r : Stretch}
    (hglosses : ∀ a, Block.gloss a ∈ r.blocks → a.Coherent ∧ braces.Balanced a.text)
    (h : r.columns s = .ok columns) : GroupsClose columns := by
  have hrun : ∀ run : List Gloss, (∀ a ∈ run, a.Coherent ∧ braces.Balanced a.text) →
      runColumns s run = .ok columns → GroupsClose columns := by
    intro run hrun h
    obtain ⟨hdual, hhalves⟩ := halves_runColumns (fun a ha => (hrun a ha).1) h
    refine .of_dual hdual ?_
    rw [hhalves, List.flatMap_def]
    refine Delimiters.Balanced.flatten braces_ne ?_
    intro t ht
    obtain ⟨a, ha, rfl⟩ := List.mem_map.1 ht
    exact (hrun a ha).2
  cases r with
  | run glosses => exact hrun glosses (fun a ha => hglosses a (List.mem_map_of_mem ha)) h
  | block b =>
    cases b with
    | chapter title =>
      cases h
      exact .of_not_dual (by simp [Column.isDual])
    | newPage =>
      cases h
      exact .of_not_dual (by simp [Column.isDual])
    | stamp markup =>
      cases h
      exact .of_not_dual (by simp [Column.isDual])
    | text t indent => exact .of_not_dual (not_dual_of_mem_lineColumns h)
    | entry level t => exact .of_not_dual (not_dual_of_mem_lineColumns h)
    | paragraph p => exact .of_not_dual (Paragraph.not_dual_of_mem_columns h)
    | gloss a =>
      refine hrun [a] ?_ h
      intro a' ha'
      rw [List.mem_singleton.1 ha']
      exact hglosses a List.mem_cons_self

/-- **A layout leaves no group open** that its glosses do not leave open. -/
theorem groupsClose_layout {blocks : List Block}
    (hglosses : ∀ a, Block.gloss a ∈ blocks → a.Coherent ∧ braces.Balanced a.text)
    (h : layout s blocks = .ok columns) : GroupsClose columns := by
  obtain ⟨parts, hparts, h⟩ := bind_eq_ok.1 h
  cases h
  have hstretch : ∀ part ∈ parts, GroupsClose part := by
    intro part hpart
    obtain ⟨r, hr, hcolumns⟩ := exists_of_mem_mapM hparts part hpart
    refine Stretch.groupsClose_columns (fun a ha => hglosses a ?_) hcolumns
    rw [← flatMap_blocks_stretches blocks]
    exact List.mem_flatMap.2 ⟨r, hr, ha⟩
  exact GroupsClose.flatten hstretch

/-! ## §3. Conversions. -/

/-- Lines in which no gloss has a style wrapper with a lone brace in its options. -/
def StylesBalanced (lines : List Text) : Prop :=
  ∀ first rest, first :: rest <:+ lines → commandName (trim first) = utf8 "注" →
    ∀ o ∈ styleOptions (collect (command "注") (first :: rest)).content, braces.Balanced o

/-- The glosses of a body that leaves nothing open are balanced. -/
theorem balanced_of_mem_readLines {lines : List Text} {a : Gloss} (hstyles : StylesBalanced lines)
    (hclosed : (readLines Catalogue.dialect lines).unbalanced = 0)
    (h : Block.gloss a ∈ (readLines Catalogue.dialect lines).blocks) : braces.Balanced a.text := by
  obtain ⟨first, rest, hsuffix, hread, hle⟩ := exists_read_of_mem_readLines lines h
  obtain ⟨known, notices, hknown, hline⟩ := Line.exists_readCommand_of_gloss hread
  rw [Dialect.BuiltIn.catalogue.readAs_eq, Option.getD_none, trim_trimRight] at hknown
  rw [hline] at hread hle
  have hunbalanced : known.unbalanced = 0 := by
    rw [hclosed] at hle
    exact Nat.le_zero.1 hle
  rcases Catalogue.eq_of_readCommand hknown with ⟨hname, rfl⟩ | ⟨-, rfl⟩
  · exact Catalogue.balanced_of_mem_readGloss (Collected.closed_of_unbalanced hunbalanced)
      (fun _ => hstyles first rest hsuffix hname) hread
  · -- nothing is taken off a note
    exact Catalogue.balanced_of_mem_readGloss (Collected.closed_of_unbalanced hunbalanced)
      (fun hunwrap => by cases hunwrap) hread

/-- A document without the warning about braces has no construct that was left open. -/
theorem Document.unbalanced_eq_zero {doc : Document} (h : Warning.unbalancedBraces ∉ doc.warnings) :
    doc.unbalanced = 0 := by
  by_contra hne
  refine h ?_
  simp [Document.warnings, hne]

/-- **Groups on the grid.** A book of the catalogue that is converted without a
warning about braces leaves no group open behind a run of dual columns, if the style
wrappers that are taken off its glosses have balanced options.  A half alone need not be
balanced: where a group is open at its end is a matter of where the glyphs were cut. -/
theorem groupsClose_of_convert {content : Text} {s : Settings} {r : Conversion}
    (h : (convert s Catalogue.dialect content).value = .ok r)
    (hwarnings : Warning.unbalancedBraces ∉ r.warnings)
    (hstyles : ∀ parts, Parts.ofText content = .ok parts → StylesBalanced (bodyLines parts.body)) :
    ∃ doc columns, Document.ofText Catalogue.dialect content = .ok doc
      ∧ layout s doc.blocks = .ok columns
      ∧ r.output = doc.render s Catalogue.dialect columns
      ∧ GroupsClose columns := by
  obtain ⟨doc, columns, hdoc, hcolumns, houtput, hdocument⟩ := exists_of_convert h
  refine ⟨doc, columns, hdoc, hcolumns, houtput, ?_⟩
  rw [hdocument] at hwarnings
  have hclosed := Document.unbalanced_eq_zero hwarnings
  refine groupsClose_layout ?_ hcolumns
  intro a ha
  refine ⟨Document.coherent_of_mem_blocks .catalogue hdoc ha, ?_⟩
  obtain ⟨parts, hparts, rfl⟩ := Document.ofText_eq_ok_iff.1 hdoc
  exact balanced_of_mem_readLines (hstyles parts hparts) hclosed ha

/-- A gloss with a style, and a note with a group. -/
def groupedLines : List Text :=
  [utf8 "\\注\x7b\\样式[red]\x7b甲\x7d\x7d", utf8 "\\按\x7b甲乙\x7b丙\x7d\x7d"]

/-- A page of them. -/
def groupedPage : Text := inDocument (joinLines groupedLines)

/-- What it says. -/
def groupedPageRead : Document where
  preamble := documentBegin
  preserved := [lineFeed]
  blocks := [.gloss ⟨utf8 "甲", 2, []⟩, .gloss ⟨utf8 "甲乙\x7b丙\x7d", 4, []⟩]
  footer := documentEnd
  unbalanced := 0
  unrecognized := 0
  notices := []

/-- Where it stands, six characters to a column: the group is cut. -/
def groupedPageColumns : List Column :=
  [.dual { indent := 2, right := utf8 "甲", left := utf8 "甲乙", leftIndent := some 4 },
    .dual { indent := 4, right := utf8 "\x7b丙", left := utf8 "\x7d" }]

/-- The page is read as it says. -/
theorem ofText_groupedPage :
    Document.ofText Catalogue.dialect groupedPage = .ok groupedPageRead := by
  decide +kernel

/-- And laid out as it stands. -/
theorem layout_groupedPage :
    layout { Settings.standard with width := 6 } groupedPageRead.blocks
      = .ok groupedPageColumns := by
  decide +kernel

/-- **The cut group closes** in the half that follows. -/
theorem groupsClose_groupedPage : GroupsClose groupedPageColumns := by
  have hconvert : ∃ r, (convert { Settings.standard with width := 6 } Catalogue.dialect
      groupedPage).value = .ok r ∧ r.warnings = [] := by
    unfold convert Document.convert
    simp only [ofText_groupedPage, layout_groupedPage]
    exact ⟨_, rfl, rfl⟩
  have hstyles : ∀ parts, Parts.ofText groupedPage = .ok parts →
      StylesBalanced (bodyLines parts.body) := by
    intro parts hparts first rest hsuffix hname
    have hlines : (Parts.ofText groupedPage).map (fun parts => bodyLines parts.body)
        = .ok (groupedLines ++ [[]]) := by decide +kernel
    rw [hparts] at hlines
    have hbody : bodyLines parts.body = groupedLines ++ [[]] := Except.ok.inj hlines
    rw [hbody] at hsuffix
    rcases List.suffix_cons_iff.1 hsuffix with h | hsuffix
    · cases h
      decide +kernel
    rcases List.suffix_cons_iff.1 hsuffix with h | hsuffix
    · cases h
      exact absurd hname (by decide +kernel)
    rcases List.suffix_cons_iff.1 hsuffix with h | hsuffix
    · cases h
      exact absurd hname (by decide +kernel)
    · cases List.suffix_nil.1 hsuffix
  obtain ⟨r, hr, hwarnings⟩ := hconvert
  obtain ⟨doc, columns, hdoc, hcolumns, -, hgroups⟩ :=
    groupsClose_of_convert hr (by simp [hwarnings]) hstyles
  cases ofText_groupedPage.symm.trans hdoc
  cases layout_groupedPage.symm.trans hcolumns
  exact hgroups

/-- A gloss with a style whose option holds a brace. -/
def bracedOption : Text := utf8 "\\注\x7b\\样式[\x7b]\x7b甲\x7d\x7d\x7d"

/-- The group of the page is open where a half ends; and the brace of an option is
missed by its partner, once the option is gone. -/
theorem exists_unbalanced_groupedPage :
    (Document.ofText Catalogue.dialect groupedPage = .ok groupedPageRead
      ∧ groupedPageRead.warnings = []
      ∧ layout { Settings.standard with width := 6 } groupedPageRead.blocks
        = .ok groupedPageColumns
      ∧ ∃ t ∈ groupedPageColumns.flatMap Column.halves, ¬ braces.Balanced t)
    ∧ ∃ doc columns, Document.ofText Catalogue.dialect (inDocument bracedOption) = .ok doc
      ∧ doc.warnings = [] ∧ layout .standard doc.blocks = .ok columns ∧ ¬ GroupsClose columns := by
  refine ⟨⟨ofText_groupedPage, rfl, layout_groupedPage, utf8 "\x7b丙", by decide +kernel,
    by decide +kernel⟩, { groupedPageRead with blocks := [.gloss ⟨utf8 "甲\x7d", 2, []⟩] },
    [.dual { indent := 2, right := utf8 "甲\x7d" }], by decide +kernel, rfl, by decide +kernel, ?_⟩
  intro h
  exact absurd h.whole (by decide +kernel)

end FolioGrid
