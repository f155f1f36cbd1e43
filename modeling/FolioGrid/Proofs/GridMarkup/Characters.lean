/-
  FolioGrid.Proofs.GridMarkup.Characters
  ────────────────────────────────
  **THE GRID IS WELL FORMED.**

  What is written around the columns is ASCII or a literal; what is taken over
  of the preamble, the front matter and the footer is taken over by lines, or
  cut at brackets and blanks.  So a document of the grid is well formed if its
  source and its columns are.
-/
import FolioGrid.GridMarkup.Document
import FolioGrid.Proofs.Dialect.Glosses
import FolioGrid.Proofs.Layout.Words
import FolioGrid.Proofs.Markup.Characters
import FolioGrid.Proofs.Text.Numeral
import Mathlib.Data.List.TakeDrop

namespace FolioGrid.GridMarkup

open FolioGrid.Text FolioGrid.Markup

variable {t : Text} {s : Settings} {d : Dialect} {columns : List Column}

/-! ## §1. Columns. -/

/-- Digits and the minus sign are ASCII, so numbers are well formed. -/
theorem wellFormed_decimal (i : Int) : WellFormed (decimal i) := by
  refine wellFormed_of_ascii ?_
  intro b hb
  rcases mem_decimal hb with hdigit | rfl
  · unfold isDigit at hdigit
    simp only [Bool.and_eq_true, decide_eq_true_eq, UInt8.le_iff_toNat_le,
      UInt8.lt_iff_toNat_lt, UInt8.reduceToNat] at hdigit ⊢
    omega
  · decide

theorem wellFormed_indentMark (indent : Int) : WellFormed (indentMark indent) :=
  (wellFormed_command _).append (wellFormed_option (wellFormed_decimal indent))

/-- What is written of a column is well formed if its words are: a single one, -/
theorem wellFormed_single (h : WellFormed t) (indent : Int) : WellFormed (single t indent) := by
  unfold single
  split
  · exact h
  · exact (wellFormed_indentMark indent).append
      (MadeOf.append (t := [ascii ' ']) (wellFormed_singleton (by decide)) h)

/-- one half of a dual one, -/
theorem wellFormed_half (name : String) (indent : Option Int) (h : WellFormed t) :
    WellFormed (half name indent t) := by
  refine ((wellFormed_command name).append ?_).append (wellFormed_group h)
  cases indent with
  | none => exact .nil
  | some i => exact wellFormed_option ((wellFormed_utf8 _).append (wellFormed_decimal i))

/-- and both. -/
theorem wellFormed_dual {c : DualColumn} (hright : WellFormed c.right)
    (hleft : WellFormed c.left) : WellFormed (dual c) :=
  ((wellFormed_indentMark c.indent).append (wellFormed_command _)).append
    (wellFormed_group ((wellFormed_half _ _ hright).append (wellFormed_half _ _ hleft)))

theorem wellFormed_heading (h : WellFormed t) : WellFormed (heading t) :=
  (wellFormed_command _).append (wellFormed_group h)

/-! ## §2. The content. -/

theorem Written.mem_of_mem_dropBreak {w : Written} (h : t ∈ w.dropBreak.entries) :
    t ∈ w.entries := by
  unfold dropBreak at h
  split at h
  · exact h
  · next entry rest hentries =>
    rw [hentries]
    split at h
    · exact List.mem_cons_of_mem entry h
    · rwa [hentries] at h

/-- One more column adds well-formed entries only. -/
theorem Written.wellFormed_add {w : Written} {c : Column} (hw : ∀ e ∈ w.entries, WellFormed e)
    (hc : c.Says (fun _ => True) WellFormed) : ∀ e ∈ (w.add c).entries, WellFormed e := by
  have push : ∀ {v : Written} {entry : Text}, (∀ e ∈ v.entries, WellFormed e) →
      WellFormed entry → ∀ e ∈ (v.push entry).entries, WellFormed e := by
    intro v entry hv hentry e he
    rcases List.mem_cons.1 he with rfl | he
    · exact hentry
    · exact hv e he
  cases c with
  | chapter title =>
    simp only [add]
    split
    · refine push (push (push (push ?_ ?_) ?_) ?_) ?_
      · exact fun e he => hw e (mem_of_mem_dropBreak he)
      · exact wellFormed_endMark _
      · exact wellFormed_command _
      · exact wellFormed_heading (hc.words title (List.mem_singleton_self title))
      · exact wellFormed_beginMark _
    · exact hw
  | newPage =>
    simp only [add]
    split
    · exact hw
    · exact push hw (wellFormed_command _)
  | stamp markup =>
    exact push hw ((hc.markup markup (List.mem_singleton_self markup)).append
      (wellFormed_singleton (by decide)))
  | single t indent =>
    exact push hw (wellFormed_single (hc.words t (List.mem_singleton_self t)) indent)
  | dual d =>
    exact push hw (wellFormed_dual (hc.words d.right (by simp [Column.words]))
      (hc.words d.left (by simp [Column.words])))

/-- **All entries are well formed** if the columns say well-formed words. -/
theorem wellFormed_of_mem_contentEntries
    (hcolumns : ∀ c ∈ columns, c.Says (fun _ => True) WellFormed) :
    ∀ e ∈ contentEntries columns, WellFormed e := by
  have run : ∀ {w : Written}, (∀ e ∈ w.entries, WellFormed e) →
      ∀ e ∈ (columns.foldl Written.add w).entries, WellFormed e := by
    induction columns with
    | nil => exact fun hw => hw
    | cons c rest ih =>
      intro w hw
      exact ih (fun c' hc' => hcolumns c' (List.mem_cons_of_mem c hc'))
        (Written.wellFormed_add hw (hcolumns c List.mem_cons_self))
  intro e he
  refine run ?_ e (List.mem_reverse.1 he)
  intro e he
  rw [List.mem_singleton.1 he]
  exact wellFormed_beginMark _

/-- The heading that stands in front of all is one of the columns' words. -/
theorem wellFormed_of_firstTitle? (hcolumns : ∀ c ∈ columns, c.Says (fun _ => True) WellFormed)
    (h : firstTitle? columns = some t) : WellFormed t := by
  obtain ⟨c, hc, htitle⟩ := List.exists_of_findSome?_eq_some h
  split at htitle
  · next title =>
    cases htitle
    exact (hcolumns _ hc).words t (List.mem_singleton_self t)
  · cases htitle

/-! ## §3. The preamble. -/

/-- The name of a template is cut out of its line at brackets. -/
theorem wellFormed_of_sourceTemplate? {name : Text} (ht : WellFormed t)
    (h : sourceTemplate? t = some name) : WellFormed name := by
  obtain ⟨rest, hrest, h⟩ := Option.bind_eq_some_iff.1 h
  rw [List.span_eq_takeWhile_dropWhile] at h
  dsimp only at h
  split at h
  · cases h
    have hopening : WellFormed classOpening :=
      (wellFormed_command _).append (wellFormed_singleton (by decide))
    exact ((ht.of_after? hrest hopening).span_ne (by decide)).1
  · cases h

/-- A line of the preamble stays as it is, or is written with a template's name. -/
theorem wellFormed_of_preambleLine? {l : Text}
    (hnames : ∀ e ∈ (templateNames s d).entries, WellFormed e.2) (ht : WellFormed t)
    (h : preambleLine? s d t = some l) : WellFormed l := by
  unfold preambleLine? at h
  split at h
  · next name hname =>
    cases h
    have hclass : WellFormed gridClass := wellFormed_utf8 _
    refine ((wellFormed_command _).append (wellFormed_option ?_)).append (wellFormed_group hclass)
    cases hget : (templateNames s d).get? name with
    | none => exact wellFormed_of_sourceTemplate? ht hname
    | some target =>
      obtain ⟨entry, hentry, rfl⟩ := Option.map_eq_some_iff.1 hget
      exact hnames entry (List.mem_of_find?_eq_some hentry)
  · split at h
    · cases h
    · cases h
      exact ht

/-- No line comes in where blank ones are left out. -/
theorem mem_of_mem_collapseBlank {afterBlank : Bool} {ls : List Text}
    (h : t ∈ collapseBlank afterBlank ls) : t ∈ ls := by
  fun_induction collapseBlank afterBlank ls with
  | case1 => exact h
  | case2 l rest hblank ih => exact List.mem_cons_of_mem l (ih h)
  | case3 afterBlank l rest hblank hfirst ih =>
    rcases List.mem_cons.1 h with rfl | h
    · exact List.mem_cons_self
    · exact List.mem_cons_of_mem l (ih h)
  | case4 afterBlank l rest hwords ih =>
    rcases List.mem_cons.1 h with rfl | h
    · exact List.mem_cons_self
    · exact List.mem_cons_of_mem l (ih h)

/-- **A preamble is well formed** if its source and the names of templates are. -/
theorem wellFormed_preamble (hnames : ∀ e ∈ (templateNames s d).entries, WellFormed e.2)
    (h : WellFormed t) : WellFormed (preamble s d t) := by
  refine wellFormed_joinLines ?_
  intro l hl
  obtain ⟨k, hk, hkl⟩ := List.mem_filterMap.1 (mem_of_mem_collapseBlank hl)
  exact wellFormed_of_preambleLine? hnames (h.of_mem_lines k hk) hkl

/-- The names of templates that the library brings along are ASCII. -/
theorem wellFormed_of_mem_templateNames (hs : s.templates = standardTemplates) (hd : d.BuiltIn) :
    ∀ e ∈ (templateNames s d).entries, WellFormed e.2 := by
  intro e he
  unfold templateNames at he
  rw [hs] at he
  refine wellFormed_of_ascii ?_
  cases hd with
  | plain =>
    have hall : ∀ e ∈ (standardTemplates.override Dialect.plain.templates).entries,
        ∀ b ∈ e.2, b < 0x80 := by decide +kernel
    exact hall e he
  | catalogue =>
    have hall : ∀ e ∈ (standardTemplates.override Catalogue.dialect.templates).entries,
        ∀ b ∈ e.2, b < 0x80 := by decide +kernel
    exact hall e he

/-! ## §4. The document. -/

/-- **A document of the grid is well formed** if its source and its columns
are. -/
theorem wellFormed_document {before preserved footer : Text}
    (hnames : ∀ e ∈ (templateNames s d).entries, WellFormed e.2) (hbefore : WellFormed before)
    (hpreserved : WellFormed preserved)
    (hcolumns : ∀ c ∈ columns, c.Says (fun _ => True) WellFormed) (hfooter : WellFormed footer) :
    WellFormed (document s d before preserved columns footer) := by
  have hfront : ∀ e ∈ frontEntries preserved, WellFormed e := by
    unfold frontEntries
    split
    · simp
    · simpa using ⟨hpreserved.trimRight, MadeOf.nil⟩
  have hend : WellFormed (footerEntry footer) := by
    unfold footerEntry
    split
    · exact wellFormed_endMark _
    · exact hfooter.trimRight
  have htitle : ∀ e ∈ ((firstTitle? columns).map heading).toList, WellFormed e := by
    intro e he
    obtain ⟨title, htitle, rfl⟩ := Option.map_eq_some_iff.1 (Option.mem_toList.1 he)
    exact wellFormed_heading (wellFormed_of_firstTitle? hcolumns htitle)
  refine wellFormed_joinLines ?_
  intro e he
  unfold documentEntries at he
  -- the entries in their order: preamble, front matter, heading, columns, end
  rcases List.mem_append.1 he with he | he
  · rcases List.mem_append.1 he with he | he
    · rcases List.mem_append.1 he with he | he
      · rcases List.mem_append.1 he with he | he
        · rcases List.mem_cons.1 he with rfl | he
          · exact wellFormed_preamble hnames hbefore
          · rw [List.mem_singleton.1 he]
            exact .nil
        · exact hfront e he
      · exact htitle e he
    · exact wellFormed_of_mem_contentEntries hcolumns e he
  · simp only [List.mem_cons, List.not_mem_nil, or_false] at he
    rcases he with rfl | rfl | rfl | rfl
    · exact .nil
    · exact wellFormed_endMark _
    · exact hend
    · exact .nil

end FolioGrid.GridMarkup
