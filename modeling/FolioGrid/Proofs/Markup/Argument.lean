/-
  FolioGrid.Proofs.Markup.Argument
  ────────────────────────────────
  **ARGUMENTS THAT WERE WRITTEN ARE FOUND.**

  What the scan for a closer does with a text whose delimiters are balanced is
  said once (`Delimiters.Passes`): it comes out behind the text at the depth at
  which it came in.  Such texts are closed under appending and nesting, and as
  an argument each is read back, whatever follows.  And an argument that is open
  stays open until a closer comes (`Delimiters.ifClosed_argument?_append`).
-/
import FolioGrid.Markup.Argument
import FolioGrid.Markup.Command
import FolioGrid.Proofs.Text.Occurrence

namespace FolioGrid.Markup

open FolioGrid.Text

namespace Delimiters

variable {d : Delimiters} {t u : Text}

/-! ## §1. Balanced texts. -/

/-- A text that leaves the scan at the depth at which it came. -/
def Passes (d : Delimiters) (t : Text) : Prop :=
  ∀ depth passed rest,
    balanced?.go d depth passed (t ++ rest) = balanced?.go d depth (t.reverse ++ passed) rest

theorem Passes.nil : d.Passes [] := fun _ _ _ => rfl

/-- Texts that close nothing but what they open can follow one another. -/
theorem Passes.append (ht : d.Passes t) (hu : d.Passes u) : d.Passes (t ++ u) := by
  intro depth passed rest
  rw [List.append_assoc, ht, hu, List.reverse_append, List.append_assoc]

/-- A text without delimiters. -/
theorem Passes.of_not_mem (ho : d.opener ∉ t) (hc : d.closer ∉ t) : d.Passes t := by
  induction t with
  | nil => exact .nil
  | cons b t ih =>
    intro depth passed rest
    rw [List.mem_cons, not_or] at ho hc
    have hstep : balanced?.go d depth passed (b :: t ++ rest)
        = balanced?.go d depth (b :: passed) (t ++ rest) := by
      show (if b = d.opener then _ else _) = _
      rw [if_neg (Ne.symm ho.1), if_neg (Ne.symm hc.1)]
      rfl
    rw [hstep, ih ho.2 hc.2, List.reverse_cons, List.append_assoc, List.singleton_append]

/-- A balanced text between delimiters. -/
theorem Passes.nested (hd : d.opener ≠ d.closer) (ht : d.Passes t) :
    d.Passes (d.opener :: t ++ [d.closer]) := by
  intro depth passed rest
  have hopen : balanced?.go d depth passed (d.opener :: t ++ [d.closer] ++ rest)
      = balanced?.go d (depth + 1) (d.opener :: passed) (t ++ d.closer :: rest) := by
    rw [List.cons_append, List.cons_append, List.append_assoc]
    show (if d.opener = d.opener then _ else _) = _
    rw [if_pos rfl]
    rfl
  have hclose : balanced?.go d (depth + 1) (t.reverse ++ d.opener :: passed) (d.closer :: rest)
      = balanced?.go d depth (d.closer :: (t.reverse ++ d.opener :: passed)) rest := by
    show (if d.closer = d.opener then _ else _) = _
    rw [if_neg (Ne.symm hd), if_pos rfl]
  -- in at the opener one level deeper, through the text, out at the closer
  rw [hopen, ht, hclose]
  simp

/-! ## §2. Arguments. -/

/-- A balanced text is an argument of its own. -/
theorem argument_append (hd : d.opener ≠ d.closer) (ht : d.Passes t) (rest : Text) :
    d.argument (t ++ d.closer :: rest) = ⟨t, rest, true⟩ := by
  -- the scan starts inside the delimiters, so the closer ends it
  have hscan : d.balanced? (t ++ d.closer :: rest) = some (t, rest) := by
    unfold balanced?
    rw [ht]
    show (if d.closer = d.opener then _ else _) = _
    rw [if_neg (Ne.symm hd), if_pos rfl]
    show some ((t.reverse ++ []).reverse, rest) = _
    rw [List.append_nil, List.reverse_reverse]
  unfold argument
  rw [hscan]

/-- **An argument is read as it was written**, whatever stands behind it. -/
theorem argument?_append (hd : d.opener ≠ d.closer) (ht : d.Passes t) (rest : Text) :
    d.argument? (d.opener :: t ++ [d.closer] ++ rest) = some ⟨t, rest, true⟩ := by
  rw [List.cons_append, List.cons_append, List.append_assoc]
  show (if d.opener = d.opener then some (d.argument (t ++ d.closer :: rest)) else none) = _
  rw [if_pos rfl, argument_append hd ht]

end Delimiters

variable {t : Text}

/-- A text that starts with an opening brace has an argument, closed or not. -/
theorem braceArgument?_openBrace (t : Text) :
    braceArgument? (openBrace :: t) = some (braces.argument t) := by
  show (if openBrace = openBrace then some (braces.argument t) else none) = _
  rw [if_pos rfl]

/-- A group is read as a brace argument. -/
theorem braceArgument?_group (ht : braces.Passes t) (rest : Text) :
    braceArgument? (group t ++ rest) = some ⟨t, rest, true⟩ :=
  Delimiters.argument?_append (by decide) ht rest

/-- An option is read as an optional argument. -/
theorem optionalArgument?_option (ht : brackets.Passes t) (rest : Text) :
    optionalArgument? (option t ++ rest) = some ⟨t, rest, true⟩ := by
  have hdrop : (option t ++ rest).dropWhile isSpace = option t ++ rest := by
    unfold option
    rw [List.cons_append, List.cons_append, List.dropWhile_cons_of_neg (by decide)]
  unfold optionalArgument?
  rw [hdrop]
  exact Delimiters.argument?_append (by decide) ht rest

/-- Options are skipped as they were written. -/
theorem skipOption_option (ht : brackets.Passes t) (rest : Text) :
    skipOption (option t ++ rest) = rest := by
  unfold skipOption
  rw [optionalArgument?_option ht]

/-- A group in a text that is balanced in braces. -/
theorem passes_group (ht : braces.Passes t) : braces.Passes (group t) := ht.nested (by decide)

/-! ## §3. What occurs in a command. -/

/-- The bytes around arguments. -/
def delimiterBytes : List UInt8 := [openBrace, closeBrace, openBracket, closeBracket]

/-- A group holds its content and two braces, -/
theorem not_mem_group {b : UInt8} (ho : b ≠ openBrace) (hc : b ≠ closeBrace) (ht : b ∉ t) :
    b ∉ group t := by
  unfold group
  rw [List.cons_append, List.mem_cons, List.mem_append, List.mem_singleton]
  rintro (h | h | h)
  · exact ho h
  · exact ht h
  · exact hc h

/-- and options two brackets. -/
theorem not_mem_option {b : UInt8} (ho : b ≠ openBracket) (hc : b ≠ closeBracket) (ht : b ∉ t) :
    b ∉ option t := by
  unfold option
  rw [List.cons_append, List.mem_cons, List.mem_append, List.mem_singleton]
  rintro (h | h | h)
  · exact ho h
  · exact ht h
  · exact hc h

variable {p : Text}

/-- A pattern without delimiters stands in a command, in its argument or behind
it. -/
theorem infix_group_iff (hp : ∀ b ∈ delimiterBytes, b ∉ p) (name t rest : Text) :
    p <:+: name ++ group t ++ rest ↔ p <:+: name ∨ p <:+: t ∨ p <:+: rest := by
  rw [show name ++ group t ++ rest = name ++ openBrace :: (t ++ closeBrace :: rest) by
      simp [group],
    infix_append_cons_iff (hp _ (by decide)), infix_append_cons_iff (hp _ (by decide))]

/-- The same for a command with options. -/
theorem infix_option_group_iff (hp : ∀ b ∈ delimiterBytes, b ∉ p) (name options t rest : Text) :
    p <:+: name ++ option options ++ group t ++ rest
      ↔ p <:+: name ∨ p <:+: options ∨ p <:+: t ∨ p <:+: rest := by
  -- between options and argument nothing can stand
  have hempty : p <:+: [] ∨ p <:+: t ∨ p <:+: rest ↔ p <:+: t ∨ p <:+: rest := by
    rw [List.infix_nil, or_iff_right_iff_imp]
    rintro rfl
    exact Or.inl List.nil_infix
  rw [show name ++ option options ++ group t ++ rest
      = name ++ openBracket :: (options ++ closeBracket :: ([] ++ group t ++ rest)) by
      simp [option, group],
    infix_append_cons_iff (hp _ (by decide)), infix_append_cons_iff (hp _ (by decide)),
    infix_group_iff hp, hempty]

/-! ## §4. What is added behind an argument. -/

section

variable {d : Delimiters} {a : Argument}

/-- A scan that comes out of a text comes out of any longer one at the same
place. -/
theorem Delimiters.balanced?_go_append_of_some {depth : Nat} {passed content rest : Text}
    (h : balanced?.go d depth passed t = some (content, rest)) (u : Text) :
    balanced?.go d depth passed (t ++ u) = some (content, rest ++ u) := by
  induction t generalizing depth passed with
  | nil => cases h
  | cons b t ih =>
    unfold balanced?.go at h
    rw [List.cons_append]
    unfold balanced?.go
    split at h
    · next hb =>
      rw [if_pos hb]
      exact ih h
    split at h
    · next hb hc =>
      rw [if_neg hb, if_pos hc]
      split at h
      · cases h
        rfl
      · exact ih h
    · next hb hc =>
      rw [if_neg hb, if_neg hc]
      exact ih h

/-- What is left behind a scan that comes out only behind a text is shorter than what
stands there. -/
theorem Delimiters.length_rest_lt_of_balanced?_go {depth : Nat} {passed content rest u : Text}
    (h : balanced?.go d depth passed t = none)
    (hlonger : balanced?.go d depth passed (t ++ u) = some (content, rest)) :
    rest.length < u.length := by
  induction t generalizing depth passed with
  | nil =>
    rw [List.nil_append, balanced?_go_eq] at hlonger
    obtain ⟨⟨inner, rest'⟩, hscan, heq⟩ := Option.map_eq_some_iff.1 hlonger
    obtain rfl : rest' = rest := congrArg Prod.snd heq
    have hlength := balanced?_go_length hscan
    rw [List.length_nil] at hlength
    omega
  | cons b t ih =>
    rw [List.cons_append] at hlonger
    unfold balanced?.go at h hlonger
    split at h
    · next hb =>
      rw [if_pos hb] at hlonger
      exact ih h hlonger
    split at h
    · next hb hc =>
      rw [if_neg hb, if_pos hc] at hlonger
      split at h
      · cases h
      · exact ih h hlonger
    · next hb hc =>
      rw [if_neg hb, if_neg hc] at hlonger
      exact ih h hlonger

/-- An argument is open exactly if the scan finds no place where it closes. -/
theorem Delimiters.ifClosed_argument_eq_none_iff :
    (d.argument t).ifClosed = none ↔ d.balanced? t = none := by
  unfold argument
  cases d.balanced? t with
  | none => exact ⟨fun _ => rfl, fun _ => rfl⟩
  | some p =>
    constructor
    · intro h
      cases h
    · intro h
      cases h

/-- And closed where the scan finds one. -/
theorem Delimiters.ifClosed_argument_eq_some_iff :
    (d.argument t).ifClosed = some a
      ↔ d.balanced? t = some (a.content, a.rest) ∧ a.closed = true := by
  obtain ⟨content, rest, closed⟩ := a
  unfold argument Argument.ifClosed
  cases d.balanced? t with
  | none => simp
  | some p => simp [Prod.ext_iff, eq_comm, and_assoc]

theorem Delimiters.ifClosed_argument?_cons (b : UInt8) (t : Text) :
    (d.argument? (b :: t)).bind Argument.ifClosed
      = if b = d.opener then (d.argument t).ifClosed else none := by
  show (if b = d.opener then some (d.argument t) else none).bind Argument.ifClosed = _
  split
  · rfl
  · rfl

/-- **What stands behind an argument does not change it.** -/
theorem Delimiters.ifClosed_argument?_append_of_some
    (h : (d.argument? t).bind Argument.ifClosed = some a) (u : Text) :
    (d.argument? (t ++ u)).bind Argument.ifClosed = some { a with rest := a.rest ++ u } := by
  cases t with
  | nil => cases h
  | cons b t =>
    rw [ifClosed_argument?_cons, Option.ite_none_right_eq_some] at h
    obtain ⟨hscan, hclosed⟩ := ifClosed_argument_eq_some_iff.1 h.2
    rw [List.cons_append, ifClosed_argument?_cons, if_pos h.1, ifClosed_argument_eq_some_iff]
    exact ⟨balanced?_go_append_of_some hscan u, hclosed⟩

/-- **An argument that closes in what is added ends there.** -/
theorem Delimiters.length_rest_lt_of_append {u : Text}
    (h : (d.argument? t).bind Argument.ifClosed = none)
    (hlonger : (d.argument? (t ++ u)).bind Argument.ifClosed = some a) :
    a.rest.length < u.length := by
  cases t with
  | nil =>
    obtain ⟨a', ha', hclosed⟩ := Option.bind_eq_some_iff.1 hlonger
    obtain rfl : a = a' := by
      unfold Argument.ifClosed at hclosed
      exact (Option.some.inj (Option.ite_none_right_eq_some.1 hclosed).2).symm
    have hlength := length_lt_of_argument? ha'
    rw [List.nil_append] at hlength
    omega
  | cons b t =>
    rw [List.cons_append, ifClosed_argument?_cons, Option.ite_none_right_eq_some] at hlonger
    rw [ifClosed_argument?_cons, if_pos hlonger.1, ifClosed_argument_eq_none_iff] at h
    obtain ⟨hscan, -⟩ := ifClosed_argument_eq_some_iff.1 hlonger.2
    exact length_rest_lt_of_balanced?_go h hscan

/-! ## §5. What is dropped around delimiters. -/

variable {p : UInt8 → Bool}

/-- The scan sees only the delimiters, so other bytes may be dropped before it or
after. -/
theorem Delimiters.balanced?_go_filter (ho : p d.opener = true) (hc : p d.closer = true)
    (depth : Nat) (passed t : Text) :
    balanced?.go d depth (passed.filter p) (t.filter p)
      = (balanced?.go d depth passed t).map fun r => (r.1.filter p, r.2.filter p) := by
  induction t generalizing depth passed with
  | nil => rfl
  | cons b t ih =>
    have hstep := fun n => ih n (b :: passed)
    by_cases hb : p b = true
    · simp only [List.filter_cons_of_pos hb] at hstep ⊢
      unfold balanced?.go
      split
      · exact hstep (depth + 1)
      split
      · cases depth with
        | zero => rw [Option.map_some, List.filter_reverse]
        | succ outer => exact hstep outer
      · exact hstep depth
    · have hother : b ≠ d.opener ∧ b ≠ d.closer := by
        constructor
        · rintro rfl
          exact hb ho
        · rintro rfl
          exact hb hc
      simp only [List.filter_cons_of_neg hb] at hstep ⊢
      conv => rhs; unfold balanced?.go
      rw [if_neg hother.1, if_neg hother.2]
      exact hstep depth

/-- **A scan sees its delimiters only**: other bytes can be left out, before or after. -/
theorem Delimiters.argument_filter (ho : p d.opener = true) (hc : p d.closer = true) (t : Text) :
    d.argument (t.filter p)
      = ⟨(d.argument t).content.filter p, (d.argument t).rest.filter p, (d.argument t).closed⟩ := by
  have hscan : d.balanced? (t.filter p)
      = (d.balanced? t).map fun r => (r.1.filter p, r.2.filter p) :=
    balanced?_go_filter ho hc 0 [] t
  unfold argument
  rw [hscan]
  cases d.balanced? t with
  | none => rfl
  | some r => rfl

/-- **The first brace argument** of a text, when other bytes than braces are dropped. -/
theorem braceArgument?_dropWhile_filter (ho : p openBrace = true) (hc : p closeBrace = true)
    (t : Text) :
    braceArgument? ((t.filter p).dropWhile (· ≠ openBrace))
      = (braceArgument? (t.dropWhile (· ≠ openBrace))).map fun a =>
        ⟨a.content.filter p, a.rest.filter p, a.closed⟩ := by
  induction t with
  | nil => rfl
  | cons b t ih =>
    by_cases hb : b = openBrace
    · rw [hb, List.filter_cons_of_pos ho, List.dropWhile_cons_of_neg (by simp),
        List.dropWhile_cons_of_neg (by simp), braceArgument?_openBrace, braceArgument?_openBrace,
        Delimiters.argument_filter ho hc]
      rfl
    · rw [List.dropWhile_cons_of_pos (by simpa using hb), ← ih]
      by_cases hp : p b = true
      · rw [List.filter_cons_of_pos hp, List.dropWhile_cons_of_pos (by simpa using hb)]
      · rw [List.filter_cons_of_neg hp]

/-- Texts with the same bytes of a kind, braces among them, have their first brace
arguments in common, as far as these bytes go. -/
theorem exists_braceArgument?_of_filter_eq (ho : p openBrace = true) (hc : p closeBrace = true)
    {t u : Text} (h : t.filter p = u.filter p)
    (ha : braceArgument? (t.dropWhile (· ≠ openBrace)) = some a) :
    ∃ a', braceArgument? (u.dropWhile (· ≠ openBrace)) = some a' ∧ a'.closed = a.closed
      ∧ a'.rest.filter p = a.rest.filter p := by
  have hmap := braceArgument?_dropWhile_filter ho hc u
  rw [← h, braceArgument?_dropWhile_filter ho hc, ha, Option.map_some] at hmap
  obtain ⟨a', ha', heq⟩ := Option.map_eq_some_iff.1 hmap.symm
  obtain ⟨-, hrest, hclosed⟩ := Argument.mk.inj heq
  exact ⟨a', ha', hclosed, hrest⟩

end

end FolioGrid.Markup
