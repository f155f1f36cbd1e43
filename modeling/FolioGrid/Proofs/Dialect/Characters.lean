/-
  FolioGrid.Proofs.Dialect.Characters
  ────────────────────────────────
  **GLOSSES ARE CUT BETWEEN CHARACTERS.**

  A gloss is cut at its commands into runs, the runs are trimmed into segments,
  the segments are cleaned, and the text of the gloss is put together from
  them.  No step takes a character apart, so no punctuation comes back when the
  pieces meet again.  With the readers of the base, this says what the blocks of
  a body are made of (`says_of_mem_readLines`).
-/
import FolioGrid.Proofs.Dialect.Glosses
import FolioGrid.Proofs.Reading.Characters

namespace FolioGrid

open FolioGrid.Text FolioGrid.Markup

variable {t : Text}

/-! ## §1. Events. -/

namespace Elevation

/-- The words of an event that the text spells out. -/
def Event.words : Event → Text
  | .run t => t
  | .raise _ t => t
  | .lineBreak => []
  | .move _ => []
  | .dynasty => []

/-- The words of a raise lie between braces, and the text goes on behind them. -/
theorem wellFormed_of_raiseArguments? {e : Event} {rest : Text} (ht : WellFormed t)
    (h : raiseArguments? t = some (e, rest)) : WellFormed e.words ∧ WellFormed rest := by
  obtain ⟨level, hlevel, h⟩ := Option.bind_eq_some_iff.1 h
  obtain ⟨body, hbody, h⟩ := Option.bind_eq_some_iff.1 h
  obtain ⟨n, -, h⟩ := Option.bind_eq_some_iff.1 h
  obtain ⟨level', hlevel, hclosed⟩ := Option.bind_eq_some_iff.1 hlevel
  cases Argument.eq_of_ifClosed hclosed
  obtain ⟨body', hbody, hclosed⟩ := Option.bind_eq_some_iff.1 hbody
  cases Argument.eq_of_ifClosed hclosed
  cases h
  have hblank : ∀ b, decide (b = ascii ' ') = true → b < 0x80 := by
    intro b hb
    rw [of_decide_eq_true hb]
    decide
  have hrest := (ht.of_optionalArgument? hlevel).2
  exact (hrest.span_of_ascii hblank).2.of_braceArgument? hbody

/-- A command starts with its backslash, and is followed by a well-formed text. -/
theorem wellFormed_of_command? {found : List Event} {rest : Text}
    (h : command? t = some (found, rest)) :
    Opens t ∧ (WellFormed t → (∀ e ∈ found, WellFormed e.words) ∧ WellFormed rest) := by
  have opens : ∀ {head u : Text}, after? head t = some u → Opens head → head ≠ [] → Opens t := by
    intro head u hu hopens hne
    rw [after?_eq_some_iff.1 hu]
    exact hopens.append_of_ne_nil hne u
  have single : ∀ {name : String} {u : Text} {e : Event},
      after? (Markup.command name) t = some u → e.words = [] → Opens t ∧
        (WellFormed t → (∀ e' ∈ [e], WellFormed e'.words) ∧ WellFormed u) := by
    intro name u e hu he
    refine ⟨opens hu (wellFormed_command name).opens (command_ne_nil name), fun ht => ⟨?_, ?_⟩⟩
    · intro e' he'
      rw [List.mem_singleton.1 he', he]
      exact .nil
    · exact ht.of_after? hu (wellFormed_command name)
  unfold command? at h
  split at h
  · next u hu =>
    cases h
    -- the token of a break is no command with a name, but two backslashes
    have htoken : WellFormed lineBreakToken := wellFormed_of_ascii (by decide +kernel)
    refine ⟨opens hu htoken.opens (by decide), fun ht => ⟨?_, ht.of_after? hu htoken⟩⟩
    intro e he
    rw [List.mem_singleton.1 he]
    exact .nil
  split at h
  · next u hu =>
    refine ⟨opens hu (wellFormed_command _).opens (command_ne_nil _), fun ht => ?_⟩
    have hu' := ht.of_after? hu (wellFormed_command _)
    split at h
    · next e rest hraise =>
      cases h
      obtain ⟨hwords, hrest⟩ := wellFormed_of_raiseArguments? hu' hraise
      exact ⟨fun e' he' => by rwa [List.mem_singleton.1 he'], hrest⟩
    · cases h
      exact ⟨by simp, hu'⟩
  split at h
  · next u hu =>
    cases h
    exact single hu rfl
  split at h
  · next u hu =>
    cases h
    exact single hu rfl
  split at h
  · next u hu =>
    cases h
    exact single hu rfl
  · cases h

/-- What has been passed may end inside a character; with what is left it does
not. -/
theorem wellFormed_of_mem_events_go {passed : Text} (h : WellFormed (passed.reverse ++ t)) :
    ∀ e ∈ events.go passed t, WellFormed e.words := by
  fun_induction events.go passed t with
  | case1 passed t found rest hcommand ih =>
    obtain ⟨hopens, hparts⟩ := wellFormed_of_command? hcommand
    obtain ⟨hpassed, ht⟩ := h.split hopens
    obtain ⟨hfound, hrest⟩ := hparts ht
    intro e he
    rcases List.mem_cons.1 he with rfl | he
    · exact hpassed
    rcases List.mem_append.1 he with he | he
    · exact hfound e he
    · exact ih hrest e he
  | case2 passed hnone =>
    intro e he
    rw [List.mem_singleton.1 he]
    rwa [List.append_nil] at h
  | case3 passed b rest hnone ih =>
    refine ih ?_
    rwa [List.reverse_cons, List.append_assoc]

/-! ## §2. Segments. -/

/-- Segments are the events' words, trimmed. -/
theorem wellFormed_of_mem_segmentsFrom {base indent : Int} {pending : Bool} {es : List Event}
    (h : ∀ e ∈ es, WellFormed e.words) :
    ∀ s ∈ segmentsFrom base indent pending es, WellFormed s.text := by
  have rest : ∀ {e es}, (∀ e' ∈ e :: es, WellFormed (Event.words e')) →
      ∀ e' ∈ es, WellFormed e'.words := fun h e' he' => h e' (List.mem_cons_of_mem _ he')
  fun_induction segmentsFrom base indent pending es with
  | case1 => simp
  | case2 indent pending t es hblank ih => exact ih (rest h)
  | case3 indent pending t es hblank ih =>
    intro s hs
    rcases List.mem_cons.1 hs with rfl | hs
    · exact (h _ List.mem_cons_self).trim
    · exact ih (rest h) s hs
  | case4 indent pending es ih => exact ih (rest h)
  | case5 indent pending place es ih => exact ih (rest h)
  | case6 indent pending es ih =>
    intro s hs
    rcases List.mem_cons.1 hs with rfl | hs
    · exact wellFormed_utf8 _
    · exact ih (rest h) s hs
  | case7 indent pending level t es hblank ih => exact ih (rest h)
  | case8 indent pending level t es hblank ih =>
    intro s hs
    rcases List.mem_cons.1 hs with rfl | hs
    · exact (h _ List.mem_cons_self).trim
    · exact ih (rest h) s hs

/-- **The segments of a well-formed gloss are well formed.** -/
theorem wellFormed_of_mem_expand (h : WellFormed t) (base : Int) :
    ∀ s ∈ (expand t base).value, WellFormed s.text :=
  have hevents : ∀ e ∈ events.go [] t, WellFormed e.words := wellFormed_of_mem_events_go h
  wellFormed_of_mem_segmentsFrom hevents

end Elevation

/-! ## §3. Glosses. -/

namespace Catalogue

/-- Clean segments hold no punctuation. -/
theorem madeOf_of_mem_cleanSegments {carried : Bool} {segments : List Segment}
    (h : ∀ s ∈ segments, WellFormed s.text) :
    ∀ s ∈ cleanSegments carried segments, MadeOf Unpunctuated s.text := by
  intro s hs
  obtain ⟨s', hs', htext, -⟩ := exists_of_mem_cleanSegments hs
  rw [htext]
  exact (h s' hs').clean

/-- A gloss says what its segments say, -/
theorem says_of_gloss? {P : Char → Prop} {Q : Text → Prop} {indent : Int}
    {segments : List Segment} {a : Gloss} (hsegments : ∀ s ∈ segments, MadeOf P s.text)
    (h : gloss? indent segments = some a) : (Block.gloss a).Says P Q := by
  cases segments with
  | nil => cases h
  | cons s rest =>
    cases h
    refine ⟨?_, by simp [Block.markup]⟩
    intro t ht
    rcases List.mem_cons.1 ht with rfl | ht
    · exact MadeOf.flatMap hsegments
    · obtain ⟨s', hs', rfl⟩ := List.mem_map.1 ht
      -- the segments are kept, or there is none
      dsimp only at hs'
      split at hs'
      · cases hs'
      · exact hsegments s' hs'

/-- **so an annotation says well-formed words without punctuation.** -/
theorem says_of_mem_readGloss {name : String} {indent : Int} {unwrap : Bool} {ls : List Text}
    {b : Block} (hls : ∀ l ∈ ls, WellFormed l)
    (h : b ∈ (readGloss (Markup.command name) indent unwrap ls).blocks) :
    b.Says Unpunctuated WellFormed := by
  obtain ⟨a, ha, rfl⟩ := List.mem_map.1 (show b ∈ List.map _ _ from h)
  refine says_of_gloss? (madeOf_of_mem_cleanSegments (Elevation.wellFormed_of_mem_expand ?_ indent))
    (Option.mem_toList.1 ha)
  have hcontent := (wellFormed_collect name hls).2
  cases unwrap with
  | true => exact wellFormed_unwrapStyles hcontent
  | false => exact hcontent

end Catalogue

/-! ## §4. Bodies. -/

/-- What a line gives has no punctuation in its words, whichever way it was
read. -/
theorem Line.Gives.says_of_wellFormed {d : Dialect} (hd : d.BuiltIn) {line : Text}
    {ls : List Text} {b : Block} (hline : WellFormed line) (hls : ∀ l ∈ ls, WellFormed l)
    (h : Line.Gives d line ls b) :
    b.Says Unpunctuated WellFormed := by
  cases h with
  | chapter h => exact Block.says_of_words_eq (Line.madeOf_of_chapterTitle? hline h) rfl rfl
  | newPage h => exact ⟨by simp [Block.words], by simp [Block.markup]⟩
  | stamp h =>
    refine ⟨by simp [Block.words], ?_⟩
    intro m hm
    rw [List.mem_singleton.1 hm]
    exact Stamp.wellFormed_markup (wellFormed_collect _ hls).1
  | paragraph h hb =>
    refine Paragraph.says_of_mem_read (hline.of_after? h (wellFormed_beginMark _)) ?_ hb
    intro l hl
    exact hls l (List.mem_of_mem_drop hl)
  | entry h => exact Entry.says_of_ofLine? hline h
  | plain words => exact Block.says_of_words_eq hline.clean rfl rfl
  | styled h words => exact Block.says_of_words_eq (Line.madeOf_of_styledText? hline h) rfl rfl
  | command h hb =>
    cases hd with
    | plain => cases h
    | catalogue =>
      rcases Catalogue.eq_of_readCommand h with ⟨-, rfl⟩ | ⟨-, rfl⟩
      · exact Catalogue.says_of_mem_readGloss hls hb
      · exact Catalogue.says_of_mem_readGloss hls hb

/-- **The blocks of well-formed lines are well formed, and their words have no
punctuation.** -/
theorem says_of_mem_readLines {d : Dialect} (hd : d.BuiltIn) {ls : List Text}
    (hls : ∀ l ∈ ls, WellFormed l) :
    ∀ b ∈ (readLines d ls).blocks, b.Says Unpunctuated WellFormed := by
  intro b hb
  obtain ⟨first, rest, hsuffix, hb, -⟩ := exists_read_of_mem_readLines ls hb
  have hread := fun l hl => hls l (hsuffix.subset hl)
  have hgives := Line.gives_of_mem_read hb
  rw [hd.readAs_eq, Option.getD_none] at hgives
  exact hgives.says_of_wellFormed hd (hread first List.mem_cons_self).trimRight.trim hread

end FolioGrid
