/-
  FolioGrid.Proofs.Markup.Characters
  ────────────────────────────────
  **MARKUP IS CUT BETWEEN CHARACTERS.**

  Delimiters and the backslash of a command are ASCII bytes, and commands are
  well-formed texts.  So what a scan makes of a text (an argument, what follows
  it, a text without its style wrappers) is made of the characters of the text.
-/
import FolioGrid.Markup.Style
import FolioGrid.Proofs.Text.Characters

namespace FolioGrid

open FolioGrid.Text FolioGrid.Markup

variable {P : Char → Prop} {d : Delimiters} {t : Text} {a : Argument}

/-! ## §1. Arguments. -/

/-- The scan for a closer takes a text apart at one. -/
theorem Markup.Delimiters.eq_of_balanced?_go {depth : Nat} {passed content rest : Text}
    (h : Delimiters.balanced?.go d depth passed t = some (content, rest)) :
    passed.reverse ++ t = content ++ d.closer :: rest := by
  induction t generalizing depth passed with
  | nil => simp [Delimiters.balanced?.go] at h
  | cons b t ih =>
    have hpush : passed.reverse ++ b :: t = (b :: passed).reverse ++ t := by simp
    simp only [Delimiters.balanced?.go] at h
    split at h
    · rw [hpush]
      exact ih h
    split at h
    · next hb =>
      split at h
      · cases h
        rw [hb]
      · rw [hpush]
        exact ih h
    · rw [hpush]
      exact ih h

/-- An argument that was read, and what follows it, are the text but for the
delimiters. -/
theorem Markup.Delimiters.eq_of_argument? (h : d.argument? t = some a) :
    t = d.opener :: (a.content ++ d.closer :: a.rest) ∧ a.closed = true
      ∨ t = d.opener :: a.content ∧ a.rest = [] ∧ a.closed = false := by
  cases t with
  | nil => cases h
  | cons b t =>
    simp only [Delimiters.argument?] at h
    split at h
    · next hb =>
      cases h
      rw [hb]
      unfold Delimiters.argument
      split
      · next content rest hscan =>
        exact Or.inl ⟨congrArg _ (Delimiters.eq_of_balanced?_go hscan), rfl⟩
      · exact Or.inr ⟨rfl, rfl, rfl⟩
    · cases h

/-- **The delimiters are characters**, so an argument is made of the characters of its text. -/
theorem Text.MadeOf.of_argument? (ht : MadeOf P t) (hd : d.opener < 0x80 ∧ d.closer < 0x80)
    (h : d.argument? t = some a) : MadeOf P a.content ∧ MadeOf P a.rest := by
  rcases Delimiters.eq_of_argument? h with ⟨heq, -⟩ | ⟨heq, hrest, -⟩
  · rw [heq] at ht
    exact (ht.of_cons hd.1).around hd.2
  · rw [heq] at ht
    rw [hrest]
    exact ⟨ht.of_cons hd.1, .nil⟩

theorem Text.MadeOf.of_braceArgument? (ht : MadeOf P t) (h : braceArgument? t = some a) :
    MadeOf P a.content ∧ MadeOf P a.rest :=
  ht.of_argument? (by decide) h

/-- The same holds behind white, for options. -/
theorem Text.MadeOf.of_optionalArgument? (ht : MadeOf P t) (h : optionalArgument? t = some a) :
    MadeOf P a.content ∧ MadeOf P a.rest :=
  (ht.span_of_ascii fun _ => ascii_of_isSpace).2.of_argument? (by decide) h

/-- An argument that is taken only if it is closed is taken as it is. -/
theorem Markup.Argument.eq_of_ifClosed {b : Argument} (h : a.ifClosed = some b) : b = a := by
  unfold Argument.ifClosed at h
  split at h
  · exact (Option.some.inj h).symm
  · cases h

theorem Text.MadeOf.skipOption (h : MadeOf P t) : MadeOf P (skipOption t) := by
  unfold Markup.skipOption
  split
  · next ha => exact (h.of_optionalArgument? ha).2
  · exact h

/-- What follows an argument ends the text. -/
theorem Markup.Delimiters.rest_suffix (h : d.argument? t = some a) : a.rest <:+ t := by
  rcases Delimiters.eq_of_argument? h with ⟨heq, -⟩ | ⟨-, hrest, -⟩
  · rw [heq, List.append_cons, ← List.cons_append]
    exact List.suffix_append _ a.rest
  · rw [hrest]
    exact List.nil_suffix

/-- What is skipped stands in front of what is left. -/
theorem skipOption_suffix (t : Text) : skipOption t <:+ t := by
  unfold skipOption
  split
  · next a ha => exact (Delimiters.rest_suffix ha).trans (List.dropWhile_suffix isSpace)
  · exact List.suffix_refl t

/-! ## §2. Commands. -/

/-- What the library writes of its own is well formed: commands, -/
theorem wellFormed_command (name : String) : WellFormed (command name) :=
  (wellFormed_singleton (by decide)).append (wellFormed_utf8 name)

theorem command_ne_nil (name : String) : command name ≠ [] := List.cons_ne_nil _ _

/-- groups and options of well-formed words, -/
theorem wellFormed_group (h : WellFormed t) : WellFormed (group t) :=
  ((wellFormed_singleton (by decide)).append h).append (wellFormed_singleton (by decide))

theorem wellFormed_option (h : WellFormed t) : WellFormed (option t) :=
  ((wellFormed_singleton (by decide)).append h).append (wellFormed_singleton (by decide))

/-- and the marks of environments. -/
theorem wellFormed_beginMark (environment : String) : WellFormed (beginMark environment) :=
  (wellFormed_command _).append (wellFormed_group (wellFormed_utf8 environment))

theorem wellFormed_endMark (environment : String) : WellFormed (endMark environment) :=
  (wellFormed_command _).append (wellFormed_group (wellFormed_utf8 environment))

/-! ## §3. Styles. -/

/-- **Unwrapping styles cuts no character.** -/
theorem wellFormed_unwrapStyles (h : WellFormed t) : WellFormed (unwrapStyles t) := by
  have hstyle : WellFormed styleCommand := wellFormed_command _
  fun_induction unwrapStyles t with
  | case1 t hnone => exact h
  | case2 t c hc body hbody ih =>
    obtain ⟨hbefore, hafter⟩ := h.of_cut? hc hstyle (command_ne_nil _)
    obtain ⟨hcontent, hrest⟩ := hafter.skipOption.of_braceArgument? hbody
    exact hbefore.append (ih (hcontent.append hrest))
  | case3 t c hc hnone ih =>
    obtain ⟨hbefore, hafter⟩ := h.of_cut? hc hstyle (command_ne_nil _)
    have hskip := hafter.skipOption
    -- the options that are skipped are what stands in front of a well-formed rest
    rw [← List.suffix_iff_eq_append.1 (skipOption_suffix c.after)] at hafter
    exact ((hbefore.append hstyle).append (hafter.split_right hskip).1).append (ih hskip)

end FolioGrid
