/-
  FolioGrid.Proofs.Reading.Characters
  ────────────────────────────────
  **READERS CUT BETWEEN CHARACTERS.**

  Each reader takes its words out of the lines with the scans of the markup,
  and cleans them.  From well-formed lines the words are therefore made of
  characters that are no punctuation, whether they are cleaned before they are
  cut (as in an entry with a gloss inside) or after.  A seal is well formed.
-/
import FolioGrid.Proofs.Layout.Words
import FolioGrid.Proofs.Markup.Characters
import FolioGrid.Proofs.Reading.Origin

namespace FolioGrid

open FolioGrid.Text FolioGrid.Markup

variable {t line : Text} {ls : List Text}

/-! ## §1. Collected arguments. -/

theorem wellFormed_oneLine (h : WellFormed t) : WellFormed (oneLine t) :=
  MadeOf.append_filter_ne (x := []) (by decide) h

/-- An argument lies between two braces, which are characters by themselves. -/
theorem wellFormed_of_argumentOf? {name : String} {a : Argument} (ht : WellFormed t)
    (h : argumentOf? (command name) t = some a) : WellFormed a.content := by
  obtain ⟨c, hc, ha⟩ := Option.bind_eq_some_iff.1 h
  obtain ⟨-, hafter⟩ := ht.of_cut? hc (wellFormed_command name) (command_ne_nil name)
  exact ((hafter.span_ne (by decide)).2.of_braceArgument? ha).1

/-- What is salvaged begins behind one. -/
theorem wellFormed_salvage (name : String) (h : WellFormed t) :
    WellFormed (salvage (command name) t) := by
  unfold salvage
  split
  · next a ha =>
    refine wellFormed_oneLine ?_
    have hcontent := wellFormed_of_argumentOf? h ha
    -- the braces that are dropped stand behind what is kept
    have hparts := congrArg List.reverse
      (List.takeWhile_append_dropWhile (p := (· = closeBrace)) (l := a.content.reverse))
    rw [List.reverse_append, List.reverse_reverse] at hparts
    rw [← hparts] at hcontent
    refine (hcontent.split_right (wellFormed_of_ascii ?_)).1
    intro b hb
    have hbrace : b = closeBrace := by
      simpa using List.mem_takeWhile_imp (List.mem_reverse.1 hb)
    rw [hbrace]
    decide
  · exact .nil

/-- From line to line, what has been gathered stays well formed. -/
theorem wellFormed_collect_go (name : String) (hls : ∀ l ∈ ls, WellFormed l) :
    ∀ {t : Text} {taken : Nat}, WellFormed t →
      WellFormed (collect.go (command name) t taken ls).text
        ∧ WellFormed (collect.go (command name) t taken ls).content := by
  have closed : ∀ {t : Text} {a : Argument}, WellFormed t →
      (argumentOf? (command name) t).bind Argument.ifClosed = some a →
      WellFormed (oneLine a.content) := by
    intro t a ht ha
    obtain ⟨a', ha', hclosed⟩ := Option.bind_eq_some_iff.1 ha
    rw [Argument.eq_of_ifClosed hclosed]
    exact wellFormed_oneLine (wellFormed_of_argumentOf? ht ha')
  induction ls with
  | nil =>
    intro t taken ht
    unfold collect.go
    split
    · next a ha => exact ⟨ht, closed ht ha⟩
    · exact ⟨ht, wellFormed_salvage name ht⟩
  | cons next rest ih =>
    intro t taken ht
    unfold collect.go
    split
    · next a ha => exact ⟨ht, closed ht ha⟩
    · refine ih (fun l hl => hls l (List.mem_cons_of_mem next hl)) (ht.append ?_)
      exact MadeOf.append (t := [lineFeed]) (wellFormed_singleton (by decide))
        (hls next List.mem_cons_self).trim

/-- **What is collected from well-formed lines is well formed.** -/
theorem wellFormed_collect (name : String) (hls : ∀ l ∈ ls, WellFormed l) :
    WellFormed (collect (command name) ls).text
      ∧ WellFormed (collect (command name) ls).content := by
  cases ls with
  | nil => exact ⟨.nil, wellFormed_salvage name .nil⟩
  | cons first rest =>
    exact wellFormed_collect_go name (fun l hl => hls l (List.mem_cons_of_mem first hl))
      (hls first List.mem_cons_self).trim

/-! ## §2. Seals. -/

/-- An argument that is taken for a seal is taken as it is. -/
theorem Stamp.eq_of_filled {a b : Argument} (h : filled a = some b) : b = a := by
  unfold filled at h
  split at h
  · exact (Option.some.inj h).symm
  · cases h

/-- **The markup of a seal is well formed**, whether it was written anew or kept. -/
theorem Stamp.wellFormed_markup {c : Collected} (h : WellFormed c.text) :
    WellFormed (markup c) := by
  have hflat := h.removeBlanks
  have hstamp : WellFormed stampCommand := wellFormed_command _
  unfold markup
  dsimp only
  split
  · cases hcanonical : canonical? (removeBlanks c.text) with
    | none => exact hflat
    | some m =>
      obtain ⟨arguments, harguments, hm⟩ := Option.bind_eq_some_iff.1 hcanonical
      obtain ⟨options, hoptions, hm⟩ := Option.bind_eq_some_iff.1 hm
      obtain ⟨file, hfile, hm⟩ := Option.bind_eq_some_iff.1 hm
      obtain ⟨options', hoptions, hfilled⟩ := Option.bind_eq_some_iff.1 hoptions
      obtain ⟨file', hfile, hfilled'⟩ := Option.bind_eq_some_iff.1 hfile
      cases eq_of_filled hfilled
      cases eq_of_filled hfilled'
      cases hm
      obtain ⟨hcontent, hrest⟩ :=
        (hflat.of_after? harguments hstamp).of_optionalArgument? hoptions
      exact (hstamp.append (wellFormed_option hcontent)).append
        (wellFormed_group (hrest.of_braceArgument? hfile).1)
  · exact hflat

/-! ## §3. Paragraphs. -/

namespace Paragraph

/-- A comment is cut off in front of its percent sign. -/
theorem exists_beforeComment (escaped : Bool) (t : Text) :
    ∃ u, beforeComment escaped t ++ u = t ∧ (u = [] ∨ u.head? = some percent) := by
  induction t generalizing escaped with
  | nil => exact ⟨[], rfl, Or.inl rfl⟩
  | cons b t ih =>
    unfold beforeComment
    split
    · next hb =>
      refine ⟨b :: t, rfl, Or.inr ?_⟩
      rw [Bool.and_eq_true, decide_eq_true_eq] at hb
      rw [hb.1]
      rfl
    · obtain ⟨u, hu, hhead⟩ := ih (b = backslash)
      exact ⟨u, by rw [List.cons_append, hu], hhead⟩

/-- A comment is cut off at its sign, which is a character. -/
theorem wellFormed_lineText (h : WellFormed t) : WellFormed (lineText t) := by
  obtain ⟨u, hu, hhead⟩ := exists_beforeComment false (trim t)
  have ht := h.trim
  rw [← hu] at ht
  refine (ht.split ?_).1.trimRight
  rcases hhead with rfl | hhead
  · exact opens_nil
  · obtain ⟨v, rfl⟩ := List.head?_eq_some_iff.1 hhead
    exact opens_cons (by decide) v

/-- A paragraph's lines are those of the body, the last one up to the mark. -/
theorem wellFormed_enclosed (hls : ∀ l ∈ ls, WellFormed l) :
    ∀ l ∈ (enclosed ls).inner, WellFormed l := by
  induction ls with
  | nil => simp [enclosed]
  | cons first rest ih =>
    have hfirst := hls first List.mem_cons_self
    unfold enclosed
    split
    · next c hc =>
      intro l hl
      rw [List.mem_singleton.1 hl]
      exact (hfirst.of_cut? hc (wellFormed_endMark _) (by decide)).1
    · intro l hl
      rcases List.mem_cons.1 hl with rfl | hl
      · exact hfirst
      · exact ih (fun l hl => hls l (List.mem_cons_of_mem first hl)) l hl

/-- So a paragraph says well-formed words without punctuation. -/
theorem says_of_mem_read {rest : Text} {below : List Text} {b : Block} (hrest : WellFormed rest)
    (hbelow : ∀ l ∈ below, WellFormed l) (h : b ∈ (read rest below).blocks) :
    b.Says Unpunctuated WellFormed := by
  have hb := show b ∈ (if _ then [] else [Block.paragraph _]) from h
  split at hb
  · cases hb
  · rw [List.mem_singleton.1 hb]
    refine Block.says_of_words_eq (MadeOf.clean ?_) rfl rfl
    refine MadeOf.flatMap fun l hl => wellFormed_lineText (wellFormed_enclosed ?_ l hl)
    intro k hk
    rcases List.mem_cons.1 hk with rfl | hk
    · exact hrest.skipOption
    · exact hbelow k hk

end Paragraph

/-! ## §4. Entries. -/

/-- **Flattening a gloss adds no punctuation**: what stands in front of it was
clean before it was cut, and so was its argument. -/
theorem Entry.madeOf_flatten (h : MadeOf Unpunctuated t) : MadeOf Unpunctuated (flatten t) := by
  unfold flatten
  split
  · exact h
  · next c hc =>
    obtain ⟨hbefore, hafter⟩ := h.of_cut? hc (wellFormed_command _) (command_ne_nil _)
    split
    · next body hbody =>
      have hcontent := (hafter.skipOption.of_braceArgument? hbody).1
      exact hbefore.trim.append (hcontent.stripPunctuation.mono fun _ hchar => hchar.2)
    · exact h

/-- Behind its level, an entry goes on at a character. -/
theorem Entry.wellFormed_of_level? {digits rest : Text} (hline : WellFormed line)
    (h : level? line = some (digits, rest)) : WellFormed rest := by
  obtain ⟨arguments, harguments, h⟩ := Option.bind_eq_some_iff.1 h
  obtain ⟨level, hlevel, h⟩ := Option.bind_eq_some_iff.1 h
  obtain ⟨level', hlevel, hclosed⟩ := Option.bind_eq_some_iff.1 hlevel
  cases Argument.eq_of_ifClosed hclosed
  split at h
  · cases h
    exact ((hline.of_after? harguments (wellFormed_command _)).of_argument? (by decide) hlevel).2
  · cases h

/-- Its group lies between two braces. -/
theorem Entry.wellFormed_of_widestGroup? (ht : WellFormed t) {u : Text}
    (h : widestGroup? t = some u) : WellFormed u := by
  unfold widestGroup? at h
  split at h
  · cases h
  · next b rest =>
    split at h
    · next hb =>
      rw [hb] at ht
      exact (ht.of_cons (by decide)).of_beforeLast? (Option.filter_eq_some_iff.1 h).1 (by decide)
    · cases h

/-- So an entry says well-formed words without punctuation, -/
theorem Entry.says_of_ofLine? {b : Block} (hline : WellFormed line)
    (h : (ofLine? line).value = some b) : b.Says Unpunctuated WellFormed := by
  unfold ofLine? at h
  split at h
  · cases h
  · next digits rest hlevel =>
    split at h
    · cases h
    · obtain ⟨t, ht, rfl⟩ := Option.map_eq_some_iff.1 h
      have hrest := wellFormed_of_level? hline hlevel
      exact Block.says_of_words_eq (madeOf_flatten (wellFormed_of_widestGroup? hrest ht).clean)
        rfl rfl

/-! ## §5. Headings and styled lines. -/

namespace Line

/-- a heading too, -/
theorem madeOf_of_chapterTitle? (hline : WellFormed line) (h : chapterTitle? line = some t) :
    MadeOf Unpunctuated t := by
  obtain ⟨u, hu, rfl⟩ := Option.map_eq_some_iff.1 h
  obtain ⟨rest, hrest, hu⟩ := Option.bind_eq_some_iff.1 (Option.filter_eq_some_iff.1 hu).1
  have hopening : WellFormed chapterOpening :=
    (wellFormed_command _).append (wellFormed_singleton (by decide))
  exact ((hline.of_after? hrest hopening).of_beforeLast? hu (by decide)).clean

/-- and a styled passage. -/
theorem madeOf_of_styledText? (hline : WellFormed line) (h : styledText? line = some t) :
    MadeOf Unpunctuated t := by
  obtain ⟨arguments, harguments, h⟩ := Option.bind_eq_some_iff.1 h
  obtain ⟨style, hstyle, h⟩ := Option.bind_eq_some_iff.1 h
  obtain ⟨body, hbody, h⟩ := Option.bind_eq_some_iff.1 h
  obtain ⟨body', hbody', hclosed⟩ := Option.bind_eq_some_iff.1 hbody
  cases Argument.eq_of_ifClosed hclosed
  cases h
  have hargs := hline.of_after? harguments (wellFormed_command _)
  exact ((hargs.of_optionalArgument? hstyle).2.of_braceArgument? hbody').1.clean

end Line

end FolioGrid
