/-
  FolioGrid.Proofs.GridMarkup.Content
  ────────────────────────────────
  **THE CONTENT OF A DOCUMENT.**

  The writer adds columns one by one and looks at its last entry to keep page
  breaks from piling up.  What comes out can be told from the columns alone: the
  first heading is taken out, page ends that say nothing new are dropped, and each
  column that is left gives its entries (`columnEntries`).

      Written.whole_add — one column more, written now or left to be written
      contentEntries_eq — hence all columns

  Main result: `document_structure`.  Environments open and close in turn, each
  column stands in its place, and between two columns of an environment there is
  one page break if a page ends there, and else none.
-/
import FolioGrid.GridMarkup.Document
import FolioGrid.Proofs.GridMarkup.Tidy

namespace FolioGrid.GridMarkup

open FolioGrid.Text FolioGrid.Markup

/-! ## §1. Columns and their entries. -/

/-- The entries of one column.  A heading closes an environment, turns the page
and opens the next environment. -/
def columnEntries : Column → List Text
  | .chapter title => [contentEnd, newPage, heading title, contentBegin]
  | .newPage => [pageBreak]
  | .stamp markup => [stamp markup]
  | .single t indent => [single t indent]
  | .dual d => [dual d]

/-- Every column writes something. -/
theorem columnEntries_ne_nil (c : Column) : columnEntries c ≠ [] := by
  cases c <;> exact List.cons_ne_nil _ _

/-- The marks between columns. -/
def contentMarks : List Text := [pageBreak, contentBegin, contentEnd]

/-- No seal is written like a mark, -/
theorem stamp_not_mem (markup : Text) : stamp markup ∉ contentMarks := by
  intro h
  have hlast : ∀ e ∈ contentMarks, e.getLast? ≠ some percent := by decide
  exact hlast _ h (by simp [stamp])

/-- no dual column, -/
theorem dual_not_mem (d : DualColumn) : dual d ∉ contentMarks := by
  intro h
  have hsecond : ∀ e ∈ contentMarks, e[1]? ≠ (dual {})[1]? := by decide +kernel
  exact hsecond _ h rfl

/-- and no heading. -/
theorem heading_not_mem (title : Text) : heading title ∉ contentMarks := by
  intro h
  have hsecond : ∀ e ∈ contentMarks, e[1]? ≠ some (ascii 'c') := by decide
  exact hsecond _ h rfl

/-- A column whose markup is none of the marks between columns. -/
def Unmistakable : Column → Prop
  | .single t indent => single t indent ∉ contentMarks
  | _ => True

variable {c : Column} {columns rest : List Column} {w : Written}

theorem not_mem_contentMarks {e : Text} (h : e ∉ contentMarks) :
    e ≠ pageBreak ∧ e ≠ contentBegin ∧ e ≠ contentEnd := by
  simpa [contentMarks] using h

/-- Columns with words, and seals, are written as one entry, which is no mark. -/
theorem exists_columnEntries (h : Unmistakable c) (hturns : c.turnsPage = false) :
    ∃ entry, columnEntries c = [entry] ∧ entry ∉ contentMarks := by
  cases c with
  | chapter title => cases hturns
  | newPage => cases hturns
  | stamp markup => exact ⟨_, rfl, stamp_not_mem markup⟩
  | single t indent => exact ⟨_, rfl, h⟩
  | dual d => exact ⟨_, rfl, dual_not_mem d⟩

/-- Only the end of a page is a page break. -/
theorem filter_columnEntries (h : Unmistakable c) :
    (columnEntries c).filter (· ≠ pageBreak) = if c = .newPage then [] else columnEntries c := by
  cases c with
  | chapter title =>
    have htitle := (not_mem_contentMarks (heading_not_mem title)).1
    have hmarks : contentEnd ≠ pageBreak ∧ newPage ≠ pageBreak ∧ contentBegin ≠ pageBreak := by
      decide
    simp [columnEntries, htitle, hmarks]
  | newPage => rfl
  | _ =>
    obtain ⟨entry, hentry, hmark⟩ := exists_columnEntries h rfl
    simp [hentry, (not_mem_contentMarks hmark).1]

/-- Only a heading closes an environment and opens one. -/
theorem filter_marks_columnEntries (h : Unmistakable c) :
    (columnEntries c).filter (fun e => e = contentBegin ∨ e = contentEnd)
      = if c.isChapter then [contentEnd, contentBegin] else [] := by
  cases c with
  | chapter title =>
    have htitle := (not_mem_contentMarks (heading_not_mem title)).2
    have hpage : newPage ≠ contentBegin ∧ newPage ≠ contentEnd := by decide
    simp [columnEntries, htitle, hpage, Column.isChapter]
  | newPage => decide
  | _ =>
    obtain ⟨entry, hentry, hmark⟩ := exists_columnEntries h rfl
    simp [hentry, (not_mem_contentMarks hmark).2, Column.isChapter]

/-- **Without the page breaks**, the entries are those of the columns that end no page. -/
theorem filter_flatMap_columnEntries (h : ∀ c ∈ columns, Unmistakable c) :
    (columns.flatMap columnEntries).filter (· ≠ pageBreak)
      = (columns.filter (· ≠ .newPage)).flatMap columnEntries := by
  induction columns with
  | nil => rfl
  | cons c rest ih =>
    rw [List.flatMap_cons, List.filter_append, filter_columnEntries (h c List.mem_cons_self),
      ih fun a ha => h a (List.mem_cons_of_mem c ha), List.filter_cons]
    by_cases hc : c = .newPage
    · simp [hc]
    · simp [hc]

/-- **Of the marks of environments**, each heading closes one and opens the next. -/
theorem filter_marks_flatMap_columnEntries (h : ∀ c ∈ columns, Unmistakable c) :
    (columns.flatMap columnEntries).filter (fun e => e = contentBegin ∨ e = contentEnd)
      = (List.replicate (columns.countP Column.isChapter) [contentEnd, contentBegin]).flatten := by
  induction columns with
  | nil => rfl
  | cons c rest ih =>
    rw [List.flatMap_cons, List.filter_append, filter_marks_columnEntries (h c List.mem_cons_self),
      ih fun a ha => h a (List.mem_cons_of_mem c ha), List.countP_cons]
    by_cases hc : c.isChapter = true
    · simp [hc, List.replicate_succ]
    · simp [hc]

/-- Only a page's end is written as a page break. -/
theorem pageBreak_not_mem_columnEntries (h : Unmistakable c) (hc : c ≠ .newPage) :
    pageBreak ∉ columnEntries c := by
  have hfilter := filter_columnEntries h
  rw [if_neg hc, List.filter_eq_self] at hfilter
  intro hmem
  simpa using hfilter pageBreak hmem

/-- No page break stands at an end of the entries, if no page end does. -/
theorem head?_flatMap_columnEntries (h : ∀ c ∈ columns, Unmistakable c)
    (hhead : columns.head? ≠ some .newPage) :
    (columns.flatMap columnEntries).head? ≠ some pageBreak := by
  cases columns with
  | nil => exact nofun
  | cons c rest =>
    have hc : c ≠ .newPage := by simpa using hhead
    rw [List.flatMap_cons, List.head?_append_of_ne_nil _ (columnEntries_ne_nil c)]
    intro hbreak
    exact pageBreak_not_mem_columnEntries (h c List.mem_cons_self) hc (List.mem_of_head? hbreak)

/-- So the entries end with a page break only if the columns end with a page. -/
theorem getLast?_flatMap_columnEntries (h : ∀ c ∈ columns, Unmistakable c)
    (hlast : columns.getLast? ≠ some .newPage) :
    (columns.flatMap columnEntries).getLast? ≠ some pageBreak := by
  rcases List.eq_nil_or_concat columns with rfl | ⟨above, c, rfl⟩
  · exact nofun
  · rw [List.concat_eq_append] at h hlast ⊢
    have hc : c ≠ .newPage := by simpa using hlast
    rw [List.flatMap_append, List.flatMap_singleton,
      List.getLast?_append_of_ne_nil _ (columnEntries_ne_nil c)]
    intro hbreak
    exact pageBreak_not_mem_columnEntries (h c (by simp)) hc (List.mem_of_getLast? hbreak)

/-- Entries of columns in which no page ends twice: a page break is followed by no
other one, and not by the end of its environment. -/
theorem isChain_flatMap_columnEntries (h : ∀ c ∈ columns, Unmistakable c)
    (hchain : columns.IsChain fun a b => a = .newPage → b.turnsPage = false) :
    (columns.flatMap columnEntries).IsChain
      fun a b => a = pageBreak → b ≠ pageBreak ∧ b ≠ contentEnd := by
  induction columns with
  | nil => exact List.IsChain.nil
  | cons c rest ih =>
    rw [List.isChain_cons] at hchain
    rw [List.flatMap_cons, List.isChain_append]
    refine ⟨?_, ih (fun a ha => h a (List.mem_cons_of_mem c ha)) hchain.2, ?_⟩
    · cases c with
      | chapter title =>
        have htitle := (not_mem_contentMarks (heading_not_mem title)).1
        have hmarks : contentEnd ≠ pageBreak ∧ newPage ≠ pageBreak := by decide
        simp [columnEntries, htitle, hmarks]
      | _ => exact List.IsChain.singleton _
    · intro x hx y hy hbreak
      have hc : c = .newPage := by
        by_contra hc
        refine pageBreak_not_mem_columnEntries (h c List.mem_cons_self) hc ?_
        exact hbreak ▸ List.mem_of_getLast? hx
      -- behind the end of a page stands an entry that is no mark at all
      cases rest with
      | nil => cases hy
      | cons b rest =>
        have hturns : b.turnsPage = false := hchain.1 b rfl hc
        obtain ⟨entry, hentry, hmark⟩ :=
          exists_columnEntries (h b (List.mem_cons_of_mem c List.mem_cons_self)) hturns
        rw [List.flatMap_cons, hentry] at hy
        cases hy
        exact ⟨(not_mem_contentMarks hmark).1, (not_mem_contentMarks hmark).2.2⟩

/-- Environments that are closed before the next one opens alternate. -/
theorem cons_flatten_replicate {α : Type} (a b : α) (n : Nat) :
    a :: (List.replicate n [b, a]).flatten ++ [b] = (List.replicate (n + 1) [a, b]).flatten := by
  induction n with
  | zero => rfl
  | succ n ih =>
    rw [List.replicate_succ, List.replicate_succ, List.flatten_cons, List.flatten_cons, ← ih]
    simp

/-! ## §2. The writer. -/

/-- The columns that are still to be written: without the first heading, if it has
not been met. -/
def toWrite (headed : Bool) (columns : List Column) : List Column :=
  if headed then columns else withoutTitle columns

/-- Columns behind what has been written, whose last entry may be a page break that
is still to be dropped. -/
def Written.before (w : Written) (columns : List Column) : List Column :=
  if w.entries.head? = some pageBreak then putBefore .newPage columns else columns

theorem Written.before_push {entry : Text} (h : entry ≠ pageBreak) (columns : List Column) :
    (w.push entry).before columns = columns := if_neg (by simpa [Written.push] using h)

/-- A page break that has just been written stands for the end of a page in front of what is
to come. -/
theorem Written.before_push_pageBreak (columns : List Column) :
    (w.push pageBreak).before columns = putBefore .newPage columns := if_pos rfl

/-- Dropping a break and marking a heading as met do not touch each other. -/
theorem Written.headed_dropBreak (w : Written) : w.dropBreak.headed = w.headed := by
  obtain ⟨_ | ⟨entry, entries⟩, headed⟩ := w
  · rfl
  · by_cases h : entry = pageBreak
    · simp [dropBreak, h]
    · simp [dropBreak, h]

theorem Written.entries_dropBreak_with (w : Written) (headed : Bool) :
    ({ w with headed := headed }).dropBreak.entries = w.dropBreak.entries := by
  obtain ⟨_ | ⟨entry, entries⟩, headed'⟩ := w
  · rfl
  · by_cases h : entry = pageBreak
    · simp [dropBreak, h]
    · simp [dropBreak, h]

theorem Written.dropBreak_push {entry : Text} (h : entry ≠ pageBreak) :
    (w.push entry).dropBreak = w.push entry := if_neg h

/-- To take a page break back leaves what was there before it. -/
theorem Written.entries_dropBreak_push_pageBreak :
    (w.push pageBreak).dropBreak.entries = w.entries := by
  simp [Written.push, Written.dropBreak]

/-- What was written is its last page break, if there is one, behind the rest. -/
theorem Written.reverse_entries (w : Written) :
    w.entries.reverse = w.dropBreak.entries.reverse ++ (w.before []).flatMap columnEntries := by
  obtain ⟨entries, headed⟩ := w
  cases entries with
  | nil => rfl
  | cons entry rest =>
    by_cases h : entry = pageBreak
    · simp [Written.dropBreak, Written.before, h, putBefore, columnEntries]
    · simp [Written.dropBreak, Written.before, h]

/-- All entries that there will be once some columns have been added. -/
def Written.whole (w : Written) (columns : List Column) : List Text :=
  w.dropBreak.entries.reverse ++ (w.before (tidy (toWrite w.headed columns))).flatMap columnEntries

theorem Written.whole_nil (w : Written) : w.whole [] = w.entries.reverse := by
  have htidy : tidy (toWrite w.headed []) = [] := by cases w.headed <;> rfl
  rw [w.reverse_entries, whole, htidy]

/-- A column that is no heading is written whether or not there has been one. -/
theorem toWrite_cons (h : c.isChapter = false) (headed : Bool) (rest : List Column) :
    toWrite headed (c :: rest) = c :: toWrite headed rest := by
  cases headed with
  | true => rfl
  | false => exact List.eraseP_cons_of_neg (by simp [h])

/-- A column that only adds its entry. -/
theorem Written.whole_push {entry : Text} (hentry : columnEntries c = [entry])
    (hbreak : entry ≠ pageBreak) (hpage : c ≠ .newPage) (hchapter : c.isChapter = false) :
    (w.push entry).whole rest = w.whole (c :: rest) := by
  have hbefore : w.before (tidy (c :: toWrite w.headed rest))
      = w.before [] ++ c :: tidy (toWrite w.headed rest) := by
    rw [tidy_cons, putBefore_of_ne hpage]
    unfold before
    split
    · cases c with
      | chapter title => cases hchapter
      | newPage => exact absurd rfl hpage
      | _ => rfl
    · rfl
  calc (w.push entry).whole rest
      = w.entries.reverse ++ [entry] ++ (tidy (toWrite w.headed rest)).flatMap columnEntries := by
        unfold whole
        rw [dropBreak_push hbreak, before_push hbreak]
        simp [push]
    _ = w.whole (c :: rest) := by
        unfold whole
        rw [toWrite_cons hchapter, hbefore, w.reverse_entries]
        simp [hentry]

/-- **One column more.** Adding a column to what has been written, or leaving it to
be written, comes to the same. -/
theorem Written.whole_add (h : Unmistakable c) :
    (w.add c).whole rest = w.whole (c :: rest) := by
  cases c with
  | chapter title =>
    have hbefore : w.before (.chapter title :: tidy rest) = .chapter title :: tidy rest := by
      unfold before
      split
      · rfl
      · rfl
    cases hheaded : w.headed with
    | true =>
      have hadd : w.add (.chapter title) = (((w.dropBreak.push contentEnd).push newPage).push
          (heading title)).push contentBegin := if_pos hheaded
      unfold whole
      rw [hadd, dropBreak_push (by decide), before_push (by decide), hheaded]
      show _ = _ ++ (w.before (.chapter title :: tidy rest)).flatMap columnEntries
      simp only [push, headed_dropBreak, hheaded, hbefore]
      simp [columnEntries, toWrite]
    | false =>
      -- the first heading stands elsewhere, so nothing is added here
      have hadd : w.add (.chapter title) = { w with headed := true } :=
        if_neg (by simp [hheaded])
      unfold whole
      rw [hadd, entries_dropBreak_with, hheaded]
      rfl
  | newPage =>
    have hwrite : toWrite w.headed (.newPage :: rest) = .newPage :: toWrite w.headed rest :=
      toWrite_cons rfl _ _
    unfold whole
    rw [hwrite, tidy_cons]
    by_cases hbroken : w.entries.head? = some pageBreak
    · have hadd : w.add .newPage = w := if_pos hbroken
      rw [hadd]
      simp only [before, if_pos hbroken, putBefore_putBefore]
    · have hadd : w.add .newPage = w.push pageBreak := if_neg hbroken
      rw [hadd, entries_dropBreak_push_pageBreak, before_push_pageBreak, w.reverse_entries]
      simp [before, if_neg hbroken, push]
  | _ =>
    obtain ⟨entry, hentry, hmark⟩ := exists_columnEntries h rfl
    cases hentry
    exact whole_push rfl (not_mem_contentMarks hmark).1 nofun rfl

/-- **The content of a document**, column by column. -/
theorem contentEntries_eq (h : ∀ c ∈ columns, Unmistakable c) :
    contentEntries columns
      = contentBegin :: (tidy (withoutTitle columns)).flatMap columnEntries := by
  have hrun : ∀ w : Written, (columns.foldl Written.add w).entries.reverse = w.whole columns := by
    induction columns with
    | nil => exact fun w => (w.whole_nil).symm
    | cons c rest ih =>
      intro w
      rw [List.foldl_cons, ih (fun c' hc' => h c' (List.mem_cons_of_mem c hc'))]
      exact Written.whole_add (h c List.mem_cons_self)
  exact hrun Written.start

/-! ## §3. The document. -/

/-- The entries of tidied columns, without page breaks. -/
theorem filter_entries_tidy (h : ∀ c ∈ columns, Unmistakable c) :
    ((tidy columns).flatMap columnEntries).filter (· ≠ pageBreak)
      = (columns.filter (· ≠ .newPage)).flatMap columnEntries := by
  rw [filter_flatMap_columnEntries fun c hc => h c (mem_of_mem_tidy hc)]
  rw [filter_tidy (by decide)]

/-- The environments of a document, opened and closed in turn. -/
theorem filter_marks_contentEntries (h : ∀ c ∈ withoutTitle columns, Unmistakable c) :
    (contentBegin :: (tidy (withoutTitle columns)).flatMap columnEntries ++ [contentEnd]).filter
        (fun e => e = contentBegin ∨ e = contentEnd)
      = (List.replicate (max 1 (columns.countP Column.isChapter))
          [contentBegin, contentEnd]).flatten := by
  have hmarks := filter_marks_flatMap_columnEntries fun c hc => h c (mem_of_mem_tidy hc)
  have hcount : (tidy (withoutTitle columns)).countP Column.isChapter
      = (withoutTitle columns).countP Column.isChapter := by
    rw [List.countP_eq_length_filter, List.countP_eq_length_filter, filter_tidy rfl]
  rw [← countP_withoutTitle, ← hcount, ← cons_flatten_replicate, ← hmarks]
  simp

/-- **The structure of a document's content.**  Environments open and close in turn,
one for each chapter; apart from page breaks they hold what the columns give; what
stands above page ends in a row and what stands below are parted by one break, or by
none where a heading follows; and no break stands in front of another one or of the
end of an environment. -/
theorem document_structure (s : Settings) (d : Dialect) (before preserved : Text)
    (columns : List Column) (footer : Text)
    (h : ∀ t indent, Column.single t indent ∈ columns → single t indent ∉ contentMarks) :
    ∃ inner,
      document s d before preserved columns footer
          = joinLines ([preamble s d before, []] ++ frontEntries preserved
            ++ ((firstTitle? columns).map heading).toList
            ++ contentBegin :: inner ++ [[], contentEnd, footerEntry footer, []])
        ∧ (contentBegin :: inner ++ [contentEnd]).filter
              (fun e => e = contentBegin ∨ e = contentEnd)
            = (List.replicate (max 1 (columns.countP Column.isChapter))
                [contentBegin, contentEnd]).flatten
        ∧ inner.filter (· ≠ pageBreak)
            = ((withoutTitle columns).filter (· ≠ .newPage)).flatMap columnEntries
        ∧ (∀ above ends below, withoutTitle columns = above ++ ends ++ below →
            (∀ c ∈ ends, c = .newPage) → above.getLast? ≠ some .newPage →
            below.head? ≠ some .newPage →
              ∃ front back,
                inner = front
                    ++ (if ends = [] ∨ below.head?.any Column.isChapter = true then []
                      else [pageBreak])
                    ++ back
                  ∧ front.filter (· ≠ pageBreak)
                    = (above.filter (· ≠ .newPage)).flatMap columnEntries
                  ∧ front.getLast? ≠ some pageBreak
                  ∧ back.filter (· ≠ pageBreak)
                    = (below.filter (· ≠ .newPage)).flatMap columnEntries
                  ∧ back.head? ≠ some pageBreak)
        ∧ inner.IsChain fun a b => a = pageBreak → b ≠ pageBreak ∧ b ≠ contentEnd := by
  have hall : ∀ c ∈ columns, Unmistakable c := by
    intro c hc
    cases c with
    | single t indent => exact h t indent hc
    | _ => trivial
  have hbelow : ∀ c ∈ withoutTitle columns, Unmistakable c :=
    fun c hc => hall c (withoutTitle_subset columns hc)
  refine ⟨(tidy (withoutTitle columns)).flatMap columnEntries, ?_,
    filter_marks_contentEntries hbelow, filter_entries_tidy hbelow, ?_, ?_⟩
  · rw [← contentEntries_eq hall]
    rfl
  · intro above ends below hsplit hends hlast hfirst
    have habove : ∀ c ∈ above, Unmistakable c := fun c hc => hbelow c (by simp [hsplit, hc])
    have hrest : ∀ c ∈ below, Unmistakable c := fun c hc => hbelow c (by simp [hsplit, hc])
    refine ⟨(tidy above).flatMap columnEntries, (tidy below).flatMap columnEntries, ?_,
      filter_entries_tidy habove, ?_, filter_entries_tidy hrest, ?_⟩
    · rw [hsplit, tidy_ends hends hlast hfirst, List.flatMap_append, List.flatMap_append]
      split
      · rfl
      · rfl
    · refine getLast?_flatMap_columnEntries (fun c hc => habove c (mem_of_mem_tidy hc)) ?_
      rwa [getLast?_tidy hlast]
    · refine head?_flatMap_columnEntries (fun c hc => hrest c (mem_of_mem_tidy hc)) ?_
      rwa [head?_tidy hfirst]
  · exact isChain_flatMap_columnEntries (fun c hc => hbelow c (mem_of_mem_tidy hc))
      (isChain_tidy _)

/-- Two chapters, with pages that end wherever they can. -/
def samplePages : List Column :=
  [.newPage, .chapter (utf8 "經部"), .newPage, .single (utf8 "易類") 0, .newPage, .newPage,
    .single (utf8 "書類") 1, .newPage, .chapter (utf8 "史部"),
    .stamp (command "印章" ++ group (utf8 "甲.png")), .newPage]

/-- The structure of two chapters, the first of which ends its page twice. -/
theorem structure_of_samplePages :
    ∃ inner,
      document .standard {} [] [] samplePages []
          = joinLines ([preamble .standard {} [], []] ++ frontEntries []
            ++ [heading (utf8 "經部")]
            ++ contentBegin :: inner ++ [[], contentEnd, endMark "document", []])
        ∧ (contentBegin :: inner ++ [contentEnd]).filter
              (fun e => e = contentBegin ∨ e = contentEnd)
            = [contentBegin, contentEnd, contentBegin, contentEnd]
        ∧ inner.filter (· ≠ pageBreak)
            = [utf8 "易類", indentMark 1 ++ ascii ' ' :: utf8 "書類", contentEnd, newPage,
              heading (utf8 "史部"), contentBegin,
              stamp (command "印章" ++ group (utf8 "甲.png"))]
        ∧ (∃ front back, inner = front ++ [pageBreak] ++ back
          ∧ front.filter (· ≠ pageBreak) = [utf8 "易類"] ∧ front.getLast? ≠ some pageBreak
          ∧ back.head? ≠ some pageBreak)
        ∧ inner.IsChain fun a b => a = pageBreak → b ≠ pageBreak ∧ b ≠ contentEnd := by
  have hmarks : ∀ t indent,
      Column.single t indent ∈ samplePages → single t indent ∉ contentMarks := by
    intro t indent h
    simp only [samplePages, List.mem_cons, reduceCtorEq, false_or, Column.single.injEq] at h
    rcases h with ⟨rfl, rfl⟩ | ⟨rfl, rfl⟩ | h
    · decide +kernel
    · decide +kernel
    · cases h
  obtain ⟨inner, hdocument, henvironments, hentries, hends, hbreaks⟩ :=
    document_structure .standard {} [] [] samplePages [] hmarks
  obtain ⟨front, back, hinner, hfront, hlast, -, hhead⟩ :=
    hends [.newPage, .newPage, .single (utf8 "易類") 0] [.newPage, .newPage] _ rfl
      (by decide) (by decide) (by decide)
  exact ⟨inner, hdocument, henvironments, hentries, ⟨front, back, hinner, hfront, hlast, hhead⟩,
    hbreaks⟩

end FolioGrid.GridMarkup
