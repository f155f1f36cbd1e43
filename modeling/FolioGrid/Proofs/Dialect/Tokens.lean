/-
  FolioGrid.Proofs.Dialect.Tokens
  ────────────────────────────────
  **WHERE A TOKEN IS LEFT.**

  A run goes up to the next token, so none is left in it; the name of the dynasty holds
  none; and trimming brings none forth.  But the words of a raise are taken as they
  are: nothing looks for a command in them.  So this is where the tokens are that are
  left in the segments of a gloss (`infix_text_iff`), and there may be some
  (`value_expand_nestedBreak`).
-/
import FolioGrid.Proofs.Dialect.Segments

namespace FolioGrid.Elevation

open FolioGrid.Text

variable {t run rest token : Text} {found es : List Event}

/-! ## §1. Runs. -/

/-- A command brings no run along. -/
theorem Says.run_not_mem (h : Says t found rest) : Event.run run ∉ found := by
  cases h <;> simp

/-- **No token is left in a run.** -/
theorem Reads.not_infix_of_run_mem (h : Reads t es) (hrun : Event.run run ∈ es)
    (htoken : token ∈ tokens) : ¬ token <:+: run := by
  induction h with
  | run hnone =>
    cases List.mem_singleton.1 hrun
    exact hnone token htoken
  | command hfirst hsaid _ ih =>
    rcases List.mem_cons.1 hrun with heq | hmem
    · cases heq
      intro hinside
      -- where it stood, a command would have been read
      obtain ⟨v, hsuffix, hne, hstart⟩ := exists_suffix_of_infix htoken hinside
      exact hfirst v hsuffix hne token htoken (hstart.trans (List.prefix_append v _))
    · rcases List.mem_append.1 hmem with hmem | hmem
      · exact absurd hmem hsaid.run_not_mem
      · exact ih hmem

/-! ## §2. Segments. -/

/-- The segments are the words that the events show. -/
theorem map_text_segmentsFrom (base indent : Int) (pending : Bool) (es : List Event) :
    (segmentsFrom base indent pending es).map (·.text) = es.filterMap Event.shown? := by
  induction es generalizing indent pending with
  | nil => rfl
  | cons e es ih =>
    cases h : e.shown? with
    | none => rw [segmentsFrom_cons_of_none h, List.filterMap_cons_none h, ih]
    | some words => rw [segmentsFrom_cons_of_some h, List.filterMap_cons_some h, List.map_cons, ih]

/-- Some segment of a text has a pattern exactly if some event shows one. -/
theorem exists_infix_text_iff (t p : Text) (base : Int) :
    (∃ g ∈ (expand t base).value, p <:+: g.text)
      ↔ ∃ e ∈ events t, ∃ words, e.shown? = some words ∧ p <:+: words := by
  have htexts : (expand t base).value.map (·.text) = (events t).filterMap Event.shown? :=
    map_text_segmentsFrom base base false (events t)
  constructor
  · rintro ⟨g, hg, hinside⟩
    have hmem : g.text ∈ (events t).filterMap Event.shown? :=
      htexts ▸ List.mem_map_of_mem hg
    obtain ⟨e, he, hshown⟩ := List.mem_filterMap.1 hmem
    exact ⟨e, he, g.text, hshown, hinside⟩
  · rintro ⟨e, he, words, hshown, hinside⟩
    have hmem : words ∈ (expand t base).value.map (·.text) :=
      htexts ▸ List.mem_filterMap.2 ⟨e, he, hshown⟩
    obtain ⟨g, hg, rfl⟩ := List.mem_map.1 hmem
    exact ⟨g, hg, hinside⟩

theorem infix_shownWords?_iff (htoken : token ∈ tokens) :
    (∃ words, shownWords? t = some words ∧ token <:+: words) ↔ token <:+: t := by
  have hblank : ∀ b ∈ token, isSpace b = false ∧ b ∉ wideSpace := by
    have htokens : ∀ token ∈ tokens, ∀ b ∈ token, isSpace b = false ∧ b ∉ wideSpace := by
      decide +kernel
    exact htokens token htoken
  have hne := ne_nil_of_mem_tokens htoken
  rw [← infix_trim_iff hne hblank]
  constructor
  · rintro ⟨words, hshown, hinside⟩
    rwa [(shownWords?_eq_some_iff.1 hshown).1]
  · intro hinside
    have hwords : trim t ≠ [] := by
      intro hnil
      rw [hnil] at hinside
      exact hne (List.infix_nil.1 hinside)
    exact ⟨trim t, shownWords?_eq_some_iff.2 ⟨rfl, hwords⟩, hinside⟩

/-- **What is left of the commands.** A token stands in a segment of a text exactly if
it stands in the words of a raise, where it was not read. -/
theorem infix_text_iff (h : Reads t es) (htoken : token ∈ tokens) (base : Int) :
    (∃ g ∈ (expand t base).value, token <:+: g.text)
      ↔ ∃ level words, Event.raise level words ∈ es ∧ token <:+: words := by
  rw [exists_infix_text_iff, ← h.eq_events]
  constructor
  · rintro ⟨e, he, hshown⟩
    cases e with
    | run t =>
      have hinside := (infix_shownWords?_iff htoken).1 hshown
      exact absurd hinside (h.not_infix_of_run_mem he htoken)
    | raise level words => exact ⟨level, words, he, (infix_shownWords?_iff htoken).1 hshown⟩
    | dynasty =>
      obtain ⟨words, heq, hinside⟩ := hshown
      cases heq
      have hname : ∀ token ∈ tokens, ¬ token <:+: dynastyName := by decide +kernel
      exact absurd hinside (hname token htoken)
    | lineBreak =>
      obtain ⟨words, heq, -⟩ := hshown
      cases heq
    | move place =>
      obtain ⟨words, heq, -⟩ := hshown
      cases heq
  · rintro ⟨level, words, he, hinside⟩
    exact ⟨_, he, (infix_shownWords?_iff htoken).2 hinside⟩

/-- A break, and words that rise, in which a command stands. -/
def nestedText : Text := utf8 "甲\\\\乙\\相对抬头[1]\x7b丙\\单抬丁\x7d"

/-- The break is read, and the command is left. -/
theorem infix_nestedText :
    let es : List Event :=
      [.run (utf8 "甲"), .lineBreak, .run (utf8 "乙"), .raise 1 (utf8 "丙\\单抬丁"), .run []]
    Reads nestedText es ∧ lineBreakToken ∈ tokens ∧ aboveMarginToken ∈ tokens
      ∧ (¬ ∃ g ∈ (expand nestedText 2).value, lineBreakToken <:+: g.text)
      ∧ ∃ g ∈ (expand nestedText 2).value, aboveMarginToken <:+: g.text := by
  intro es
  have hreads : Reads nestedText es := reads_iff.2 (by decide +kernel)
  have hbreak : lineBreakToken ∈ tokens := by decide +kernel
  have habove : aboveMarginToken ∈ tokens := by decide +kernel
  refine ⟨hreads, hbreak, habove, ?_, ?_⟩
  · rw [infix_text_iff hreads hbreak]
    rintro ⟨level, words, hmem, hinside⟩
    have hwords : Event.raise level words = .raise 1 (utf8 "丙\\单抬丁") := by
      simpa [es] using hmem
    cases hwords
    exact absurd hinside (by decide +kernel)
  · rw [infix_text_iff hreads habove]
    exact ⟨1, utf8 "丙\\单抬丁", by simp [es], by decide +kernel⟩

/-- Words that rise, in which a break stands. -/
def nestedBreak : Text := utf8 "\\相对抬头[1]\x7b甲\\\\乙\x7d"

/-- The break goes onto the grid as it is written, and breaks nothing. -/
theorem value_expand_nestedBreak :
    (expand nestedBreak 2).value = [⟨utf8 "甲\\\\乙", -1, true⟩]
      ∧ lineBreakToken <:+: utf8 "甲\\\\乙" := by
  decide +kernel

end FolioGrid.Elevation
