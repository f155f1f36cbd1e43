/-
  FolioGrid.Proofs.Dialect.Grammar
  ────────────────────────────────
  **THE GRAMMAR OF ELEVATION.**

  What the text of a gloss says can be told without a reader.  Up to the first
  place where a token stands it is a run; there it is a command, with its arguments
  if it has any; and behind the command all begins anew.

      Raises — the arguments of a raise, in a text that starts with them
      Says   — a command, in a text that starts with it
      Reads  — a whole text

  The reader follows this grammar, and the grammar leaves it no choice
  (`reads_iff`).  Note what `Says` gives to a raise without its arguments: no event,
  and all behind the token is still to be read.
-/
import FolioGrid.Proofs.Markup.Balance
import FolioGrid.Proofs.Source.Gloss

namespace FolioGrid

open FolioGrid.Text FolioGrid.Markup

namespace Elevation

variable {t u rest : Text} {found es : List Event} {e : Event}

/-! ## §1. Commands. -/

/-- The tokens with which a command starts. -/
def tokens : List Text :=
  [lineBreakToken, raiseToken, aboveMarginToken, atMarginToken, dynastyToken]

theorem ne_nil_of_mem_tokens {token : Text} (h : token ∈ tokens) : token ≠ [] := by
  have htokens : ∀ token ∈ tokens, token ≠ [] := by decide +kernel
  exact htokens token h

/-- A token inside a text stands at the head of one of its ends. -/
theorem exists_suffix_of_infix {token : Text} (h : token ∈ tokens) (hinside : token <:+: t) :
    ∃ v, v <:+ t ∧ v ≠ [] ∧ token <+: v := by
  obtain ⟨v, hstart, hsuffix⟩ := List.infix_iff_prefix_suffix.1 hinside
  refine ⟨v, hsuffix, ?_, hstart⟩
  rintro rfl
  exact ne_nil_of_mem_tokens h (List.prefix_nil.1 hstart)

/-- The arguments of a raise, in front of a text: blanks and, in brackets, a numeral that
fits; spaces and, in braces, the words.  A text, the places, the words, what follows. -/
inductive Raises : Text → Nat → Text → Text → Prop where
  /-- Brackets and braces are the next ones that match, and blanks around the numeral are
  left aside. -/
  | mk {blanks level spaces words : Text} (rest : Text)
      (hblanks : ∀ b ∈ blanks, isSpace b = true)
      (hlevel : brackets.Balanced level)
      (hnumeral : isNumeral (trim level) = true)
      (hcount : numeralValue (trim level) ≤ maxCount)
      (hspaces : ∀ b ∈ spaces, b = ascii ' ')
      (hwords : braces.Balanced words) :
      Raises (blanks ++ option level ++ spaces ++ group words ++ rest)
        (numeralValue (trim level)) words rest

/-- The command with which a text starts.  A text, the events, what follows. -/
inductive Says : Text → List Event → Text → Prop where
  /-- A break. -/
  | lineBreak (rest : Text) : Says (lineBreakToken ++ rest) [.lineBreak] rest
  /-- Words that rise. -/
  | raise {u words rest : Text} {level : Nat} (h : Raises u level words rest) :
      Says (raiseToken ++ u) [.raise level words] rest
  /-- A raise that lacks its arguments says nothing, and takes no more than its token. -/
  | bare {u : Text} (h : ∀ level words rest, ¬ Raises u level words rest) :
      Says (raiseToken ++ u) [] u
  /-- What follows stands one place above the margin. -/
  | aboveMargin (rest : Text) : Says (aboveMarginToken ++ rest) [.move (-1)] rest
  /-- What follows stands at the margin. -/
  | atMargin (rest : Text) : Says (atMarginToken ++ rest) [.move 0] rest
  /-- The name of the dynasty. -/
  | dynasty (rest : Text) : Says (dynastyToken ++ rest) [.dynasty] rest

theorem count?_eq_some_iff {n : Nat} :
    count? t = some n ↔ isNumeral t = true ∧ numeralValue t ≤ maxCount ∧ numeralValue t = n := by
  unfold count?
  rw [Option.ite_none_right_eq_some, Bool.and_eq_true, decide_eq_true_eq, Option.some.injEq,
    and_assoc]

/-- **The arguments of a raise are found** exactly if they are there. -/
theorem raiseArguments?_eq_some_iff :
    raiseArguments? t = some (e, rest)
      ↔ ∃ level words, Raises t level words rest ∧ e = .raise level words := by
  constructor
  · intro h
    obtain ⟨level, hlevel, h⟩ := Option.bind_eq_some_iff.1 h
    obtain ⟨body, hbody, h⟩ := Option.bind_eq_some_iff.1 h
    obtain ⟨n, hn, h⟩ := Option.bind_eq_some_iff.1 h
    cases h
    obtain ⟨-, hlevel, ht⟩ := (Delimiters.ifClosed_argument?_iff (by decide)).1 hlevel
    obtain ⟨-, hwords, hu⟩ := (Delimiters.ifClosed_argument?_iff (by decide)).1 hbody
    obtain ⟨hnumeral, hcount, rfl⟩ := count?_eq_some_iff.1 hn
    -- blanks and spaces are what the two scans for an opener drop
    have hsource : t = t.takeWhile isSpace ++ option level.content
        ++ level.rest.takeWhile (· = ascii ' ') ++ group body.content ++ body.rest := by
      have hfront : t = t.takeWhile isSpace ++ (option level.content ++ level.rest) := by
        conv => lhs; rw [← List.takeWhile_append_dropWhile (p := isSpace) (l := t), ht]
        rfl
      have hback : level.rest
          = level.rest.takeWhile (· = ascii ' ') ++ (group body.content ++ body.rest) := by
        conv =>
          lhs
          rw [← List.takeWhile_append_dropWhile (p := (· = ascii ' ')) (l := level.rest), hu]
        rfl
      conv => lhs; rw [hfront, hback]
      simp only [List.append_assoc]
    have hspaces : ∀ b ∈ level.rest.takeWhile (· = ascii ' '), b = ascii ' ' :=
      fun _ hb => by simpa using List.mem_takeWhile_imp hb
    refine ⟨_, _, ?_, rfl⟩
    rw [hsource]
    exact .mk body.rest (fun _ => List.mem_takeWhile_imp) hlevel hnumeral hcount hspaces hwords
  · rintro ⟨_, words, ⟨rest, hblanks, hlevel, hnumeral, hcount, hspaces, hwords⟩, rfl⟩
    rename_i blanks level spaces
    have hoption : optionalArgument? (blanks ++ option level ++ spaces ++ group words ++ rest)
        = some ⟨level, spaces ++ group words ++ rest, true⟩ := by
      have hskip : (blanks ++ option level ++ spaces ++ group words ++ rest).dropWhile isSpace
          = (option level ++ (spaces ++ group words ++ rest)).dropWhile isSpace := by
        simp only [List.append_assoc]
        rw [List.dropWhile_append_of_pos hblanks]
      unfold optionalArgument?
      rw [hskip]
      exact optionalArgument?_option (hlevel.passes (by decide)) _
    have hgroup : (spaces ++ group words ++ rest).dropWhile (· = ascii ' ')
        = group words ++ rest := by
      rw [List.append_assoc,
        List.dropWhile_append_of_pos fun b hb => decide_eq_true (hspaces b hb)]
      unfold group
      rw [List.cons_append, List.cons_append, List.dropWhile_cons_of_neg (by decide)]
    unfold raiseArguments?
    rw [hoption]
    show ((braceArgument? ((spaces ++ group words ++ rest).dropWhile _)).bind Argument.ifClosed).bind
      _ = _
    rw [hgroup, braceArgument?_group (hwords.passes (by decide))]
    show (count? (trim level)).bind _ = _
    rw [count?_eq_some_iff.2 ⟨hnumeral, hcount, rfl⟩]
    rfl

theorem raiseArguments?_eq_none_iff :
    raiseArguments? t = none ↔ ∀ level words rest, ¬ Raises t level words rest := by
  constructor
  · intro h level words rest hraises
    rw [raiseArguments?_eq_some_iff.2 ⟨level, words, hraises, rfl⟩] at h
    cases h
  · intro h
    rw [Option.eq_none_iff_forall_ne_some]
    rintro ⟨e, rest⟩ hsome
    obtain ⟨level, words, hraises, -⟩ := raiseArguments?_eq_some_iff.1 hsome
    exact h level words rest hraises

/-- **A command is read** exactly as it says. -/
theorem command?_eq_some_iff : command? t = some (found, rest) ↔ Says t found rest := by
  constructor
  · intro h
    unfold command? at h
    split at h
    · next hu =>
      cases h
      rw [after?_eq_some_iff.1 hu]
      exact .lineBreak _
    split at h
    · next hu =>
      rw [after?_eq_some_iff.1 hu]
      split at h
      · next harguments =>
        cases h
        obtain ⟨level, words, hraises, rfl⟩ := raiseArguments?_eq_some_iff.1 harguments
        exact .raise hraises
      · next hnone =>
        cases h
        exact .bare (raiseArguments?_eq_none_iff.1 hnone)
    split at h
    · next hu =>
      cases h
      rw [after?_eq_some_iff.1 hu]
      exact .aboveMargin _
    split at h
    · next hu =>
      cases h
      rw [after?_eq_some_iff.1 hu]
      exact .atMargin _
    split at h
    · next hu =>
      cases h
      rw [after?_eq_some_iff.1 hu]
      exact .dynasty _
    · cases h
  · -- no token begins another one, so those that are tried first are not there
    have hother : ∀ {p q : Text}, ¬ p <+: q ∧ ¬ q <+: p → ∀ u, after? p (q ++ u) = none :=
      fun h u => after?_append_eq_none h.1 h.2 u
    intro h
    unfold command?
    cases h with
    | lineBreak => rw [after?_append]
    | raise h =>
      rw [hother (p := lineBreakToken) (by decide +kernel), after?_append]
      simp only [raiseArguments?_eq_some_iff.2 ⟨_, _, h, rfl⟩]
    | bare h =>
      rw [hother (p := lineBreakToken) (by decide +kernel), after?_append]
      simp only [raiseArguments?_eq_none_iff.2 h]
    | aboveMargin =>
      rw [hother (p := lineBreakToken) (by decide +kernel),
        hother (p := raiseToken) (by decide +kernel), after?_append]
      rfl
    | atMargin =>
      rw [hother (p := lineBreakToken) (by decide +kernel),
        hother (p := raiseToken) (by decide +kernel),
        hother (p := aboveMarginToken) (by decide +kernel), after?_append]
    | dynasty =>
      rw [hother (p := lineBreakToken) (by decide +kernel),
        hother (p := raiseToken) (by decide +kernel),
        hother (p := aboveMarginToken) (by decide +kernel),
        hother (p := atMarginToken) (by decide +kernel), after?_append]

theorem Says.exists_token (h : Says t found rest) : ∃ token ∈ tokens, token <+: t := by
  cases h with
  | lineBreak => exact ⟨lineBreakToken, by simp [tokens], List.prefix_append _ _⟩
  | raise => exact ⟨raiseToken, by simp [tokens], List.prefix_append _ _⟩
  | bare => exact ⟨raiseToken, by simp [tokens], List.prefix_append _ _⟩
  | aboveMargin => exact ⟨aboveMarginToken, by simp [tokens], List.prefix_append _ _⟩
  | atMargin => exact ⟨atMarginToken, by simp [tokens], List.prefix_append _ _⟩
  | dynasty => exact ⟨dynastyToken, by simp [tokens], List.prefix_append _ _⟩

/-- Every token starts a command. -/
theorem exists_says_of_mem_tokens {token : Text} (htoken : token ∈ tokens) (u : Text) :
    ∃ found rest, Says (token ++ u) found rest := by
  simp only [tokens, List.mem_cons, List.not_mem_nil, or_false] at htoken
  rcases htoken with rfl | rfl | rfl | rfl | rfl
  · exact ⟨_, u, .lineBreak u⟩
  · by_cases h : ∃ level words rest, Raises u level words rest
    · obtain ⟨level, words, rest, h⟩ := h
      exact ⟨_, rest, .raise h⟩
    · exact ⟨_, u, .bare fun level words rest hraises => h ⟨level, words, rest, hraises⟩⟩
  · exact ⟨_, u, .aboveMargin u⟩
  · exact ⟨_, u, .atMargin u⟩
  · exact ⟨_, u, .dynasty u⟩

/-- No command is read exactly where no token stands. -/
theorem command?_eq_none_iff : command? t = none ↔ ∀ token ∈ tokens, ¬ token <+: t := by
  constructor
  · rintro h token htoken ⟨u, rfl⟩
    obtain ⟨found, rest, hsaid⟩ := exists_says_of_mem_tokens htoken u
    rw [command?_eq_some_iff.2 hsaid] at h
    cases h
  · intro h
    rw [Option.eq_none_iff_forall_ne_some]
    rintro ⟨found, rest⟩ hsome
    obtain ⟨token, htoken, hstart⟩ := (command?_eq_some_iff.1 hsome).exists_token
    exact h token htoken hstart

/-! ## §2. Texts. -/

/-- A whole text, and its events. -/
inductive Reads : Text → List Event → Prop where
  /-- A text without a token is one run. -/
  | run {t : Text} (hnone : ∀ token ∈ tokens, ¬ token <:+: t) : Reads t [.run t]
  /-- Up to the first place where a token stands, a text is a run; there it is a command. -/
  | command {run u rest : Text} {found es : List Event}
      (hfirst : ∀ v, v <:+ run → v ≠ [] → ∀ token ∈ tokens, ¬ token <+: v ++ u)
      (hsaid : Says u found rest) (hrest : Reads rest es) :
      Reads (run ++ u) (.run run :: (found ++ es))

/-- The reader steps over a part in which no command starts. -/
theorem events_go_append_of_none {run : Text}
    (h : ∀ v, v <:+ run → v ≠ [] → command? (v ++ u) = none) (passed : Text) :
    events.go passed (run ++ u) = events.go (run.reverse ++ passed) u := by
  induction run generalizing passed with
  | nil => rfl
  | cons b run ih =>
    have hnone : command? (b :: (run ++ u)) = none :=
      h (b :: run) (List.suffix_refl _) (List.cons_ne_nil b run)
    rw [List.cons_append, events_go_of_none hnone,
      ih fun v hv => h v (hv.trans (List.suffix_cons b run)), List.reverse_cons,
      List.append_assoc, List.singleton_append]

theorem Reads.eq_events (h : Reads t es) : es = events t := by
  unfold events
  induction h with
  | @run t hnone =>
    have hpass : events.go [] (t ++ []) = events.go (t.reverse ++ []) [] := by
      refine events_go_append_of_none (fun v hv _ => ?_) []
      rw [List.append_nil, command?_eq_none_iff]
      exact fun token htoken hstart => hnone token htoken (hstart.isInfix.trans hv.isInfix)
    rw [List.append_nil] at hpass
    rw [hpass, events_go_nil, List.append_nil, List.reverse_reverse]
  | @command run u rest found es hfirst hsaid hrest ih =>
    rw [events_go_append_of_none fun v hv hne => command?_eq_none_iff.2 (hfirst v hv hne),
      events_go_of_some (command?_eq_some_iff.2 hsaid), List.append_nil, List.reverse_reverse, ih,
      List.cons_append]

/-- What the reader has passed without a command is the beginning of a run. -/
theorem reads_events_go {passed : Text}
    (hfirst : ∀ v, v <:+ passed.reverse → v ≠ [] → ∀ token ∈ tokens, ¬ token <+: v ++ t) :
    Reads (passed.reverse ++ t) (events.go passed t) := by
  fun_induction events.go passed t with
  | case1 passed t found rest hcommand ih =>
    refine .command hfirst (command?_eq_some_iff.1 hcommand) (ih fun v hv hne => ?_)
    exact absurd (List.suffix_nil.1 hv) hne
  | case2 passed hnone =>
    rw [List.append_nil]
    refine .run fun token htoken hinside => ?_
    obtain ⟨v, hsuffix, hne, hstart⟩ := exists_suffix_of_infix htoken hinside
    exact hfirst v hsuffix hne token htoken (by rwa [List.append_nil])
  | case3 passed b rest hnone ih =>
    have hpush : passed.reverse ++ b :: rest = (b :: passed).reverse ++ rest := by simp
    rw [hpush]
    refine ih fun v hv hne => ?_
    rw [List.reverse_cons] at hv
    rcases List.suffix_concat_iff.1 hv with rfl | ⟨w, rfl, hw⟩
    · exact absurd rfl hne
    rw [List.append_assoc, List.singleton_append]
    by_cases hnil : w = []
    · rw [hnil]
      exact command?_eq_none_iff.1 hnone
    · exact hfirst w hw hnil

/-- **The reader follows the grammar**: a text has one reading, and it is the one that the
reader gives. -/
theorem reads_iff : Reads t es ↔ es = events t := by
  constructor
  · exact Reads.eq_events
  · rintro rfl
    have hreads : Reads (([] : Text).reverse ++ t) (events.go [] t) :=
      reads_events_go fun v hv hne => absurd (List.suffix_nil.1 hv) hne
    exact hreads

end Elevation

end FolioGrid
