/-
  FolioGrid.Proofs.Markup.Unwrapping
  ────────────────────────────────
  **WHAT UNWRAPPING LEAVES.**

  A wrapper is a style command with an argument (`StartsWrapper`).  The search that takes
  wrappers off goes from left to right, and there are two places to which it does not
  come: the option of a command without argument (`InOption`), behind which it goes on,
  and the seam where a wrapper was opened, in front of which it does not look again.

      keptRuns — what is left, cut at these seams
      Settled  — a text in which wrappers stand in such options only

  Main result: `settled_keptRuns`.  Each run is settled, and to unwrap once more changes
  nothing exactly if the whole is.
-/
import FolioGrid.Proofs.Markup.Style
import FolioGrid.Proofs.Offsets.Markup

namespace FolioGrid.Markup

open FolioGrid.Text

variable {t u v x y : Text} {c : Cut} {a body : Argument}

/-! ## §1. Options that close. -/

theorem brackets_ne : brackets.opener ≠ brackets.closer := by decide

/-- An option that closes is a balanced text in brackets, with white in front. -/
theorem exists_option_of_closed (h : optionalArgument? t = some a) (hclosed : a.closed = true) :
    ∃ white, (∀ b ∈ white, isSpace b = true) ∧ brackets.Balanced a.content
      ∧ t = white ++ (option a.content ++ a.rest) := by
  have hbalanced := Delimiters.balanced_of_argument? brackets_ne h hclosed
  refine ⟨t.takeWhile isSpace, fun _ => List.mem_takeWhile_imp, hbalanced, ?_⟩
  rcases Delimiters.eq_of_argument? h with ⟨heq, -⟩ | ⟨-, -, hopen⟩
  · conv => lhs; rw [← List.takeWhile_append_dropWhile (p := isSpace) (l := t), heq]
    simp [option, brackets]
  · rw [hclosed] at hopen
    cases hopen

/-- White in front of an option is passed. -/
theorem optionalArgument?_white_append {white : Text} (hwhite : ∀ b ∈ white, isSpace b = true)
    (t : Text) : optionalArgument? (white ++ t) = optionalArgument? t := by
  unfold optionalArgument?
  rw [List.dropWhile_append_of_pos hwhite]

/-- Balanced options are read as they were written. -/
theorem optionalArgument?_of_balanced {white o : Text} (hwhite : ∀ b ∈ white, isSpace b = true)
    (ho : brackets.Balanced o) (rest : Text) :
    optionalArgument? (white ++ (option o ++ rest)) = some ⟨o, rest, true⟩ := by
  rw [optionalArgument?_white_append hwhite]
  exact optionalArgument?_option (ho.passes brackets_ne) rest

/-- Nothing is left behind an option that does not close. -/
theorem closed_of_rest_ne_nil (h : optionalArgument? t = some a) (hrest : a.rest ≠ []) :
    a.closed = true := by
  rcases Delimiters.eq_of_argument? h with ⟨-, hclosed⟩ | ⟨-, hnil, -⟩
  · exact hclosed
  · exact absurd hnil hrest

/-- To skip options is to go on behind them. -/
theorem skipOption_eq_rest (h : optionalArgument? t = some a) : skipOption t = a.rest := by
  unfold skipOption
  rw [h]

/-- A body is missing exactly if no brace opens. -/
theorem braceArgument?_eq_none_iff : braceArgument? t = none ↔ ∀ u, t ≠ openBrace :: u := by
  cases t with
  | nil => exact ⟨nofun, fun _ => rfl⟩
  | cons b t =>
    show (if b = openBrace then some (braces.argument t) else none) = none ↔ _
    simp

/-- What follows a text does not hide the brace that stands behind its option. -/
theorem skipOption_append_of_openBrace (h : skipOption t = openBrace :: v) (u : Text) :
    skipOption (t ++ u) = openBrace :: (v ++ u) := by
  cases ho : optionalArgument? t with
  | none =>
    unfold skipOption at h
    rw [ho] at h
    rw [show t = openBrace :: v from h]
    rfl
  | some a =>
    rw [skipOption_eq_rest ho] at h
    have hclosed : a.closed = true := closed_of_rest_ne_nil ho (by simp [h])
    obtain ⟨white, hwhite, hbalanced, rfl⟩ := exists_option_of_closed ho hclosed
    rw [List.append_assoc, List.append_assoc,
      skipOption_eq_rest (optionalArgument?_of_balanced hwhite hbalanced _), h]
    rfl

/-- Where there are no options nothing is skipped. -/
theorem skippedOption_of_none (h : optionalArgument? t = none) : skippedOption t = [] := by
  have hall : skipOption t = t := by
    unfold skipOption
    rw [h]
  unfold skippedOption
  rw [hall, Nat.sub_self, List.take_zero]

/-- What is skipped in front of something is an option that closes. -/
theorem exists_option_eq_skipped (hskipped : skippedOption t ≠ []) (hrest : skipOption t ≠ []) :
    ∃ white o, (∀ b ∈ white, isSpace b = true) ∧ brackets.Balanced o
      ∧ skippedOption t = white ++ option o := by
  cases ho : optionalArgument? t with
  | none => exact absurd (skippedOption_of_none ho) hskipped
  | some a =>
    have ht := skippedOption_append t
    rw [skipOption_eq_rest ho] at ht hrest
    obtain ⟨white, hwhite, hbalanced, heq⟩ :=
      exists_option_of_closed ho (closed_of_rest_ne_nil ho hrest)
    rw [← List.append_assoc] at heq
    exact ⟨white, a.content, hwhite, hbalanced, List.append_cancel_right (ht.trans heq)⟩

/-- What is skipped is an option by itself, whatever is left of the text behind it. -/
theorem exists_option_skipped (hskipped : skippedOption t ≠ []) (hu : u <+: skipOption t) :
    ∃ a, optionalArgument? (skippedOption t ++ u) = some a ∧ a.rest = u := by
  by_cases hrest : skipOption t = []
  · -- an option up to the end, closed or not
    have ht := skippedOption_append t
    rw [hrest, List.append_nil] at ht
    rw [hrest, List.prefix_nil] at hu
    cases ho : optionalArgument? t with
    | none => exact absurd (skippedOption_of_none ho) hskipped
    | some a =>
      refine ⟨a, by rw [hu, List.append_nil, ht, ho], ?_⟩
      rw [← skipOption_eq_rest ho, hrest, hu]
  · obtain ⟨white, o, hwhite, hbalanced, hpart⟩ := exists_option_eq_skipped hskipped hrest
    refine ⟨⟨o, u, true⟩, ?_, rfl⟩
    rw [hpart, List.append_assoc, optionalArgument?_of_balanced hwhite hbalanced]

/-! ## §2. Places of the command. -/

/-- A text with a style falls apart at its command. -/
theorem eq_of_cut?_styleCommand (hc : cut? styleCommand t = some c) :
    t = c.before ++ styleCommand ++ c.after :=
  ((cut?_eq_some_iff (command_ne_nil _)).1 hc).1

/-- And so it does at the options behind it. -/
theorem eq_skipped_append (hc : cut? styleCommand t = some c) :
    t = c.before ++ styleCommand ++ skippedOption c.after ++ skipOption c.after := by
  rw [List.append_assoc, skippedOption_append]
  exact eq_of_cut?_styleCommand hc

/-- In front of where the command is found first it does not stand. -/
theorem not_infix_before (hc : cut? styleCommand t = some c) : ¬ styleCommand <:+: c.before :=
  fun h => not_infix_of_cut? (command_ne_nil _) hc (h.trans (List.prefix_append _ _).isInfix)

/-- The command stands where it is found first, or behind that. -/
theorem place_of_cut? (hc : cut? styleCommand t = some c) (ht : t = x ++ styleCommand ++ y) :
    (x = c.before ∧ y = c.after)
      ∨ ∃ p, x = c.before ++ styleCommand ++ p ∧ c.after = p ++ styleCommand ++ y := by
  have hcut := eq_of_cut?_styleCommand hc
  have hfirst := firstAt_of_cut? (command_ne_nil _) hc
  have hle : c.before.length ≤ x.length := by
    by_contra hlt
    refine hfirst.first x.length (by omega) ?_
    rw [ht, List.append_assoc, List.drop_left]
    exact List.prefix_append _ _
  rw [hcut, List.append_assoc, List.append_assoc] at ht
  obtain ⟨m, rfl⟩ : c.before <+: x :=
    List.prefix_of_prefix_length_le (List.prefix_append _ _) (ht.symm ▸ List.prefix_append _ _) hle
  rw [List.append_assoc] at ht
  have htail : styleCommand ++ c.after = m ++ (styleCommand ++ y) := List.append_cancel_left ht
  cases m with
  | nil => exact Or.inl ⟨List.append_nil _, (List.append_cancel_left htail).symm⟩
  | cons b m =>
    right
    rcases List.append_eq_append_iff.1 htail with ⟨p, hp, hafter⟩ | ⟨q, hq, hy⟩
    · exact ⟨p, by rw [hp, List.append_assoc], by rw [hafter, List.append_assoc]⟩
    · cases q with
      | nil =>
        rw [List.append_nil] at hq
        exact ⟨[], by rw [← hq, List.append_nil], hy.symm⟩
      | cons d q =>
        -- the second command would start inside the first, which has no other backslash
        obtain ⟨rfl, -⟩ : backslash = d ∧ _ := List.cons.inj hy
        have hmem : backslash ∈ styleCommand.tail := by
          rw [hq]
          simp
        exact absurd hmem (by decide +kernel)

/-! ## §3. Settled texts. -/

/-- A text that starts with a wrapper: the style command, perhaps an option, and the
brace of an argument, which may close or not. -/
def StartsWrapper (t : Text) : Prop :=
  ∃ u v, t = styleCommand ++ u ∧ skipOption u = openBrace :: v

/-- The place between two parts of a text lies in the option of a style command that has
no argument. -/
def InOption (x y : Text) : Prop :=
  ∃ u v a, x = u ++ styleCommand ++ v ∧ optionalArgument? (v ++ y) = some a
    ∧ a.rest.length < y.length ∧ braceArgument? a.rest = none

/-- Every wrapper of the text stands in the option of a command without argument. -/
def Settled (t : Text) : Prop := ∀ x y, t = x ++ y → StartsWrapper y → InOption x y

/-- What stands in front of an option makes no difference to it. -/
theorem InOption.append (h : InOption x y) (p : Text) : InOption (p ++ x) y := by
  obtain ⟨u, v, a, rfl, hoption⟩ := h
  exact ⟨p ++ u, v, a, by simp only [List.append_assoc], hoption⟩

theorem settled_of_no_command (h : ¬ styleCommand <:+: t) : Settled t := by
  rintro x y rfl ⟨u, v, rfl, -⟩
  exact absurd ⟨x, u, by rw [List.append_assoc]⟩ h

/-- A place in front of the end of what a command without argument skips lies in its
option, whatever is left of the text behind it. -/
theorem inOption_of_inside {m p : Text} (hbare : braceArgument? (skipOption c.after) = none)
    (hu : u <+: skipOption c.after) (hm : m ≠ []) (hskipped : skippedOption c.after = p ++ m) :
    InOption (c.before ++ styleCommand ++ p) (m ++ u) := by
  obtain ⟨a, ha, rfl⟩ := exists_option_skipped (t := c.after) (by simp [hskipped, hm]) hu
  refine ⟨c.before, p, a, rfl, by rw [← List.append_assoc, ← hskipped, ha], ?_, ?_⟩
  · have hpos := List.length_pos_iff.2 hm
    rw [List.length_append]
    omega
  · -- a brace would stand behind the option of the whole text, too
    obtain ⟨more, hmore⟩ := hu
    rw [braceArgument?_eq_none_iff] at hbare ⊢
    intro w hw
    refine hbare (w ++ more) ?_
    rw [← hmore, hw]
    rfl

/-- A command without argument makes no wrapper, neither where it stands nor behind its
option. -/
theorem settled_append_of_bare (hc : cut? styleCommand t = some c)
    (hbare : braceArgument? (skipOption c.after) = none) (hu : u <+: skipOption c.after)
    (h : Settled u) : Settled (c.before ++ styleCommand ++ skippedOption c.after ++ u) := by
  rintro x y hxy ⟨z, v, rfl, hz⟩
  obtain ⟨more, ht⟩ : ∃ more, t = x ++ styleCommand ++ (z ++ more) := by
    obtain ⟨more, hmore⟩ := hu
    refine ⟨more, ?_⟩
    calc t = c.before ++ styleCommand ++ skippedOption c.after ++ u ++ more := by
          rw [List.append_assoc, hmore]
          exact eq_skipped_append hc
      _ = x ++ styleCommand ++ (z ++ more) := by
          rw [hxy]
          simp only [List.append_assoc]
  rcases place_of_cut? hc ht with ⟨rfl, hplace⟩ | ⟨p, rfl, -⟩
  · -- the command itself, which would have an argument
    rw [← hplace, skipOption_append_of_openBrace hz] at hbare
    exact absurd rfl (braceArgument?_eq_none_iff.1 hbare _)
  · have hsplit : skippedOption c.after ++ u = p ++ (styleCommand ++ z) := by
      rw [List.append_assoc, List.append_assoc (c.before ++ styleCommand)] at hxy
      exact List.append_cancel_left hxy
    rcases List.append_eq_append_iff.1 hsplit with ⟨m, rfl, rfl⟩ | ⟨m, hskipped, hrest⟩
    · rw [← List.append_assoc]
      exact (h m _ rfl ⟨z, v, rfl, hz⟩).append _
    by_cases hm : m = []
    · rw [hm, List.nil_append] at hrest
      rw [hm, List.append_nil] at hskipped
      have hinside := (h [] (styleCommand ++ z) hrest.symm ⟨z, v, rfl, hz⟩).append
        (c.before ++ styleCommand ++ p)
      rwa [List.append_nil] at hinside
    · -- the wrapper starts in what is skipped
      rw [hrest]
      exact inOption_of_inside hbare hu hm hskipped

/-! ## §4. Behind an option. -/

/-- The option of a command that stands in an option closes in it. -/
theorem length_lt_rest_of_balanced {p w : Text} (ho : brackets.Balanced (p ++ w))
    (h : optionalArgument? (w ++ closeBracket :: u) = some a) : u.length < a.rest.length := by
  unfold optionalArgument? at h
  rw [List.dropWhile_append] at h
  cases hopen : w.dropWhile isSpace with
  | nil =>
    rw [hopen] at h
    cases h
  | cons b k =>
    rw [hopen] at h
    change brackets.argument? (b :: k ++ closeBracket :: u) = some a at h
    obtain ⟨n, hn⟩ : ∃ n, brackets.depth? (b :: k) n = some 0 := by
      have hdepth := (Delimiters.balanced_iff brackets_ne).1 ho
      rw [← List.takeWhile_append_dropWhile (p := isSpace) (l := w), hopen, ← List.append_assoc,
        Delimiters.depth?_append] at hdepth
      obtain ⟨n, -, hn⟩ := Option.bind_eq_some_iff.1 hdepth
      exact ⟨n, hn⟩
    have hb : b = openBracket := by
      by_contra hb
      have hnone : brackets.argument? (b :: k ++ closeBracket :: u) = none := if_neg hb
      rw [hnone] at h
      cases h
    have hinside : brackets.argument? (b :: k) = some (brackets.argument k) := if_pos hb
    have hclosed := Delimiters.closed_of_depth? hinside hn
    have houtside := Delimiters.ifClosed_argument?_append_of_some (d := brackets) (t := b :: k)
      (a := brackets.argument k) (by rw [hinside]; exact if_pos hclosed) (closeBracket :: u)
    rw [h, Option.bind_some] at houtside
    rw [← Argument.eq_of_ifClosed houtside]
    show u.length < ((brackets.argument k).rest ++ closeBracket :: u).length
    rw [List.length_append, List.length_cons]
    omega

/-- A command inside the option that is skipped has its own option there, if any. -/
theorem length_skipOption_lt_of_inside {p w : Text} (ht : t = p ++ styleCommand ++ w)
    (hp : p.length < (skippedOption t).length) (hrest : skipOption t ≠ [])
    (ha : optionalArgument? w = some a) : (skipOption t).length < a.rest.length := by
  obtain ⟨white, o, hwhite, hbalanced, hskipped⟩ :=
    exists_option_eq_skipped (List.length_pos_iff.1 (by omega)) hrest
  have hopening : backslash ∉ white ++ [openBracket] := by
    simp only [List.mem_append, List.mem_singleton]
    rintro (hmem | hmem)
    · exact absurd (hwhite _ hmem) (by decide)
    · exact absurd hmem (by decide)
  have heq : p ++ backslash :: (styleCommand.tail ++ w)
      = white ++ [openBracket] ++ (o ++ closeBracket :: skipOption t) := by
    calc p ++ backslash :: (styleCommand.tail ++ w) = p ++ styleCommand ++ w := by
          rw [List.append_assoc]
          rfl
      _ = skippedOption t ++ skipOption t := by rw [skippedOption_append, ← ht]
      _ = white ++ [openBracket] ++ (o ++ closeBracket :: skipOption t) := by
          rw [hskipped]
          simp [option]
  obtain ⟨q, rfl, hinside⟩ := exists_of_append_cons_eq hopening heq
  change o ++ closeBracket :: skipOption t = q ++ (styleCommand ++ w) at hinside
  have hle : q.length ≤ o.length := by
    rw [hskipped] at hp
    simp [option] at hp
    omega
  obtain ⟨m, rfl⟩ : q <+: o :=
    List.prefix_of_prefix_length_le ⟨_, hinside.symm⟩ (List.prefix_append _ _) hle
  rw [List.append_assoc] at hinside
  have hcommand : m ++ closeBracket :: skipOption t = styleCommand ++ w :=
    List.append_cancel_left hinside
  obtain ⟨w', rfl⟩ : styleCommand <+: m :=
    (prefix_append_cons_iff (by decide +kernel)).1 ⟨w, hcommand.symm⟩
  rw [List.append_assoc] at hcommand
  rw [← List.append_cancel_left hcommand] at ha
  rw [← List.append_assoc] at hbalanced
  exact length_lt_rest_of_balanced hbalanced ha

/-- What stands behind the option of a command is as settled as the whole. -/
theorem Settled.skipOption (hc : cut? styleCommand t = some c) (h : Settled t) :
    Settled (skipOption c.after) := by
  intro x y hxy hy
  have hcut := eq_of_cut?_styleCommand hc
  have hsplit : t = c.before ++ styleCommand ++ (skippedOption c.after ++ x) ++ y := by
    rw [List.append_assoc, List.append_assoc (skippedOption c.after), ← hxy, skippedOption_append,
      hcut]
  obtain ⟨u, v, a, hplace, ha, hlt, hbare⟩ := h _ y hsplit hy
  have hbehind : y.length ≤ (Markup.skipOption c.after).length := by
    rw [hxy, List.length_append]
    omega
  rw [hplace, List.append_assoc] at hsplit
  rcases place_of_cut? hc hsplit with ⟨-, hafter⟩ | ⟨p, rfl, hafter⟩
  · -- the option of the command itself, which ends where the rest starts
    rw [hafter] at ha
    rw [skipOption_eq_rest ha] at hbehind
    omega
  · have hp : (skippedOption c.after).length ≤ p.length := by
      by_contra hinside
      have hlonger := length_skipOption_lt_of_inside hafter (by omega)
        (List.length_pos_iff.1 (by omega)) ha
      omega
    rw [List.append_assoc (c.before ++ styleCommand ++ p),
      List.append_assoc (c.before ++ styleCommand)] at hplace
    have hplace := List.append_cancel_left hplace
    obtain ⟨q, rfl⟩ : skippedOption c.after <+: p :=
      List.prefix_of_prefix_length_le ⟨_, hplace⟩ (List.prefix_append _ _) hp
    rw [List.append_assoc] at hplace
    exact ⟨q, v, a, by rw [List.append_cancel_left hplace, List.append_assoc], ha, hlt, hbare⟩

/-! ## §5. When nothing changes. -/

/-- **Unwrapping makes no text longer.** -/
theorem length_unwrapStyles_le (t : Text) : (unwrapStyles t).length ≤ t.length := by
  fun_induction unwrapStyles t with
  | case1 t hnone => exact Nat.le_refl _
  | case2 t c hc body hbody ih =>
    have hcut := length_of_cut? hc
    have hskip := length_skipOption_le c.after
    have hargument := Delimiters.length_lt_of_argument? hbody
    rw [List.length_append] at ih ⊢
    omega
  | case3 t c hc hbare ih =>
    have hcut := length_of_cut? hc
    have hafter := congrArg List.length (skippedOption_append c.after)
    change (c.before ++ styleCommand ++ skippedOption c.after
      ++ unwrapStyles (skipOption c.after)).length ≤ t.length
    simp only [List.length_append] at hafter ⊢
    omega

/-- The first command that has an argument starts a wrapper that stands in no option. -/
theorem not_settled_of_wrapper (hc : cut? styleCommand t = some c)
    (hbody : braceArgument? (skipOption c.after) = some body) : ¬ Settled t := by
  intro h
  have hcut := eq_of_cut?_styleCommand hc
  rw [List.append_assoc] at hcut
  obtain ⟨v, hv⟩ : ∃ v, skipOption c.after = openBrace :: v := by
    by_contra hnone
    rw [braceArgument?_eq_none_iff.2 fun v hv => hnone ⟨v, hv⟩] at hbody
    cases hbody
  obtain ⟨x, y, -, hbefore, -⟩ := h _ _ hcut ⟨c.after, v, rfl, hv⟩
  exact not_infix_before hc ⟨x, y, hbefore.symm⟩

/-- **Unwrapping leaves a text alone** exactly if it is settled. -/
theorem unwrapStyles_eq_self_iff (t : Text) : unwrapStyles t = t ↔ Settled t := by
  fun_induction unwrapStyles t with
  | case1 t hnone => exact iff_of_true rfl (settled_of_no_command (cut?_eq_none_iff.1 hnone))
  | case2 t c hc body hbody ih =>
    refine iff_of_false (fun heq => ?_) (not_settled_of_wrapper hc hbody)
    -- a wrapper that is taken off makes the text shorter
    have hlength := congrArg List.length heq
    have hle := length_unwrapStyles_le (body.content ++ body.rest)
    have hcut := length_of_cut? hc
    have hskip := length_skipOption_le c.after
    have hargument := Delimiters.length_lt_of_argument? hbody
    rw [List.length_append] at hlength hle
    omega
  | case3 t c hc hbare ih =>
    have ht := eq_skipped_append hc
    constructor
    · intro heq
      have hrest : unwrapStyles (skipOption c.after) = skipOption c.after :=
        List.append_cancel_left (heq.trans ht)
      rw [ht]
      exact settled_append_of_bare hc hbare (List.prefix_refl _) (ih.1 hrest)
    · intro h
      rw [ih.2 (h.skipOption hc)]
      exact ht.symm

/-! ## §6. What is left. -/

/-- What unwrapping leaves, cut where it took a wrapper off. -/
def keptRuns (t : Text) : List Text :=
  match _hc : cut? styleCommand t with
  | none => [t]
  | some c =>
    match _hbody : braceArgument? (skipOption c.after) with
    | some body => c.before :: keptRuns (body.content ++ body.rest)
    | none =>
      (keptRuns (skipOption c.after)).modifyHead
        (c.before ++ styleCommand ++ skippedOption c.after ++ ·)
termination_by t.length
decreasing_by
  · exact length_unwrapped_lt _hc _hbody
  · exact length_skipOption_lt _hc

/-- The first run is how the text starts. -/
theorem exists_keptRuns (t : Text) : ∃ first rest, keptRuns t = first :: rest ∧ first <+: t := by
  fun_induction keptRuns t with
  | case1 t hnone => exact ⟨t, [], rfl, List.prefix_refl t⟩
  | case2 t c hc body hbody ih =>
    refine ⟨_, _, rfl, ?_⟩
    rw [eq_of_cut?_styleCommand hc, List.append_assoc]
    exact List.prefix_append _ _
  | case3 t c hc hbare ih =>
    obtain ⟨first, rest, hruns, hfirst⟩ := ih
    refine ⟨_, _, by rw [hruns, List.modifyHead_cons], ?_⟩
    rw [eq_skipped_append hc]
    exact (List.prefix_append_right_inj _).2 hfirst

theorem flatten_keptRuns (t : Text) : (keptRuns t).flatten = unwrapStyles t := by
  fun_induction keptRuns t with
  | case1 t hnone =>
    rw [unwrapStyles_of_none hnone]
    exact List.append_nil t
  | case2 t c hc body hbody ih =>
    rw [unwrapStyles_of_wrapper hc hbody, List.flatten_cons, ih]
  | case3 t c hc hbare ih =>
    obtain ⟨first, rest, hruns, -⟩ := exists_keptRuns (skipOption c.after)
    rw [hruns, List.flatten_cons] at ih
    rw [unwrapStyles_of_bare hc hbare, ← ih, hruns, List.modifyHead_cons, List.flatten_cons,
      List.append_assoc]

/-- **Every run is settled.** -/
theorem settled_of_mem_keptRuns (t : Text) : ∀ run ∈ keptRuns t, Settled run := by
  fun_induction keptRuns t with
  | case1 t hnone =>
    intro run h
    rw [List.mem_singleton.1 h]
    exact settled_of_no_command (cut?_eq_none_iff.1 hnone)
  | case2 t c hc body hbody ih =>
    exact List.forall_mem_cons.2 ⟨settled_of_no_command (not_infix_before hc), ih⟩
  | case3 t c hc hbare ih =>
    obtain ⟨first, rest, hruns, hfirst⟩ := exists_keptRuns (skipOption c.after)
    rw [hruns, List.forall_mem_cons] at ih
    rw [hruns, List.modifyHead_cons, List.forall_mem_cons]
    exact ⟨settled_append_of_bare hc hbare hfirst ih.1, ih.2⟩

/-! ## §7. Complete wrappers. -/

/-- A complete wrapper: a style command, perhaps an option, and an argument, and what
opens in them closes again. -/
inductive Wrapper : Text → Prop where
  /-- The argument follows at once. -/
  | plain {t : Text} (ht : braces.Balanced t) : Wrapper (styleCommand ++ group t)
  /-- An option stands in front of it. -/
  | withOption {white o t : Text} (hwhite : ∀ b ∈ white, isSpace b = true)
      (ho : brackets.Balanced o) (ht : braces.Balanced t) :
      Wrapper (styleCommand ++ (white ++ option o) ++ group t)

/-- A text that begins with a wrapper is one that begins a wrapper. -/
theorem Wrapper.starts {w : Text} (h : Wrapper w) (y : Text) : StartsWrapper (w ++ y) := by
  cases h with
  | @plain t ht =>
    refine ⟨group t ++ y, t ++ [closeBrace] ++ y, by rw [List.append_assoc], ?_⟩
    rfl
  | @withOption white o t hwhite ho ht =>
    refine ⟨white ++ (option o ++ (group t ++ y)), t ++ [closeBrace] ++ y, ?_, ?_⟩
    · simp only [List.append_assoc]
    · rw [skipOption_eq_rest (optionalArgument?_of_balanced hwhite ho _)]
      rfl

/-- **What unwrapping leaves.** The search ends on every text.  Each run of what it leaves
is settled, and to unwrap once more changes nothing exactly if the whole is.  So where a
complete wrapper is left, it stands in the option of a command without argument, or
something changes when what is left is unwrapped. -/
theorem settled_keptRuns (t : Text) :
    Offsets.unwrapStyles t = .ok (unwrapStyles t)
      ∧ (keptRuns t).flatten = unwrapStyles t
      ∧ (∀ run ∈ keptRuns t, Settled run)
      ∧ (unwrapStyles (unwrapStyles t) = unwrapStyles t ↔ Settled (unwrapStyles t))
      ∧ ∀ x w y, unwrapStyles t = x ++ (w ++ y) → Wrapper w →
          InOption x (w ++ y) ∨ unwrapStyles (unwrapStyles t) ≠ unwrapStyles t := by
  have hfix := unwrapStyles_eq_self_iff (unwrapStyles t)
  refine ⟨Offsets.unwrapStyles_eq t, flatten_keptRuns t, settled_of_mem_keptRuns t, hfix, ?_⟩
  intro x w y hleft hw
  by_cases hsettled : Settled (unwrapStyles t)
  · exact Or.inl (hsettled x (w ++ y) hleft (hw.starts y))
  · exact Or.inr fun hsame => hsettled (hfix.1 hsame)

/-- A wrapper in the option of a command without argument. -/
def heldStyle : Text := utf8 "\\样式[\\样式\x7b甲\x7d]乙"

/-- A name whose two parts stand around the opening of a wrapper. -/
def joinedStyle : Text := utf8 "\\样\\样式\x7b式\x7b甲\x7d\x7d"

/-- A name that is completed once its neighbour is gone, and a wrapper in an option. -/
theorem settled_joinedStyle :
    utf8 "式\x7b甲\x7d" ∈ keptRuns joinedStyle ∧ Settled (utf8 "式\x7b甲\x7d")
      ∧ unwrapStyles heldStyle
        = utf8 "\\样式[" ++ (styleCommand ++ group (utf8 "甲") ++ utf8 "]乙")
      ∧ Wrapper (styleCommand ++ group (utf8 "甲"))
      ∧ InOption (utf8 "\\样式[") (styleCommand ++ group (utf8 "甲") ++ utf8 "]乙") := by
  have hrun : utf8 "式\x7b甲\x7d" ∈ keptRuns joinedStyle := by decide +kernel
  have hleft : unwrapStyles heldStyle
      = utf8 "\\样式[" ++ (styleCommand ++ group (utf8 "甲") ++ utf8 "]乙") := by decide +kernel
  have hw : Wrapper (styleCommand ++ group (utf8 "甲")) := .plain (by decide +kernel)
  have hsame : unwrapStyles (unwrapStyles heldStyle) = unwrapStyles heldStyle := by decide +kernel
  obtain ⟨-, -, hruns, -⟩ := settled_keptRuns joinedStyle
  obtain ⟨-, -, -, -, hwrappers⟩ := settled_keptRuns heldStyle
  exact ⟨hrun, hruns _ hrun, hleft, hw,
    (hwrappers _ _ _ hleft hw).resolve_right fun hne => hne hsame⟩

/-- A complete wrapper behind an option that does not close is left too, and what the
content of a wrapper completes is taken off by a second unwrapping only. -/
theorem unwrapStyles_openOption :
    (∃ x w y, Wrapper w ∧ unwrapStyles (utf8 "\\样式[甲\\样式\x7b乙\x7d") = x ++ (w ++ y))
      ∧ (∃ x w y, Wrapper w ∧ unwrapStyles joinedStyle = x ++ (w ++ y))
      ∧ unwrapStyles (unwrapStyles joinedStyle) ≠ unwrapStyles joinedStyle := by
  refine ⟨⟨utf8 "\\样式[甲", styleCommand ++ group (utf8 "乙"), [], .plain ?_, ?_⟩,
    ⟨[], styleCommand ++ group (utf8 "甲"), [], .plain ?_, ?_⟩, ?_⟩
  · decide +kernel
  · decide +kernel
  · decide +kernel
  · decide +kernel
  · decide +kernel

end FolioGrid.Markup
