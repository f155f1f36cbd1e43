/-
  FolioGrid.Proofs.Markup.Delimiting
  ────────────────────────────────
  **ARGUMENTS ARE BALANCED TEXTS.**

  An argument reaches from its opener to the first place at which as much has been
  closed as was opened.  If there is such a place, a balanced text stands between the
  delimiters; if there is none, the argument takes all that is left.

      depth?_eq_none_iff — a text closes too much only behind a balanced beginning
      EvenAt             — the offsets at which as much is closed as was opened
      Delimits           — what an argument is, by its offsets

  Main result: `arguments_delimited`, for both kinds of arguments and at any offset of
  a text.  It also says that what is written as an argument is read as that argument.
-/
import FolioGrid.Proofs.Markup.Unwrapping
import FolioGrid.Proofs.Offsets.Argument
import Mathlib.Order.Bounds.Defs

namespace FolioGrid.Markup

open FolioGrid.Text
open FolioGrid.Offsets (Rest Found)

namespace Delimiters

variable {d : Delimiters} {t u c rest : Text} {n start stop : Nat}

/-! ## §1. Where too much is closed. -/

theorem step?_eq_none_iff {b : UInt8} (hd : d.opener ≠ d.closer) :
    d.step? n b = none ↔ b = d.closer ∧ n = 0 := by
  constructor
  · intro h
    unfold step? at h
    split at h
    · cases h
    split at h
    · next hcloser =>
      split at h
      · next hzero => exact ⟨hcloser, hzero⟩
      · cases h
    · cases h
  · rintro ⟨rfl, rfl⟩
    rw [step?_closer hd, if_pos rfl]

/-- **Too much is closed** by a closer behind a text that has closed all that was open. -/
theorem depth?_eq_none_iff (hd : d.opener ≠ d.closer) :
    d.depth? t n = none ↔ ∃ c rest, t = c ++ d.closer :: rest ∧ d.depth? c n = some 0 := by
  constructor
  · intro h
    induction t generalizing n with
    | nil => cases h
    | cons b t ih =>
      rw [depth?_cons] at h
      cases hstep : d.step? n b with
      | none =>
        obtain ⟨rfl, rfl⟩ := (step?_eq_none_iff hd).1 hstep
        exact ⟨[], t, rfl, rfl⟩
      | some k =>
        rw [hstep, Option.bind_some] at h
        obtain ⟨c, rest, rfl, hc⟩ := ih h
        refine ⟨b :: c, rest, rfl, ?_⟩
        rw [depth?_cons, hstep, Option.bind_some, hc]
  · rintro ⟨c, rest, rfl, hc⟩
    rw [depth?_append, hc, Option.bind_some, depth?_cons, step?_closer hd, if_pos rfl,
      Option.bind_none]

/-- A beginning that closes more than it opens has a balanced one, and a closer behind
that. -/
theorem exists_balanced_of_count_lt {q : Text} (hd : d.opener ≠ d.closer) (hq : q <+: t)
    (hcount : q.count d.opener < q.count d.closer) :
    ∃ c rest, d.Balanced c ∧ t = c ++ d.closer :: rest := by
  cases hdepth : d.depth? t 0 with
  | none =>
    obtain ⟨c, rest, ht, hc⟩ := (depth?_eq_none_iff hd).1 hdepth
    exact ⟨c, rest, (balanced_iff hd).2 hc, ht⟩
  | some m =>
    have hcovered := ((depth?_eq_some_iff hd).1 hdepth).1 q hq
    omega

/-! ## §2. Arguments by their offsets. -/

/-- From one offset to another as much is closed as is opened: a beginning of what stands
at the one, not the empty one, ends at the other and has as many closers as openers. -/
def EvenAt (d : Delimiters) (t : Text) (start stop : Nat) : Prop :=
  ∃ p, p <+: t.drop start ∧ p ≠ [] ∧ p.count d.closer = p.count d.opener
    ∧ stop = start + p.length

/-- What the argument is whose opener stands at an offset of a text. -/
structure Delimits (d : Delimiters) (t : Text) (start : Nat) (found : Found) : Prop where
  /-- It closes exactly if somewhere as much is closed as was opened. -/
  closed_iff : found.closed = true ↔ ∃ stop, d.EvenAt t start stop
  /-- Then it is a balanced text between delimiters, and ends at the first such place. -/
  of_closed : found.closed = true →
    t = t.take start ++ d.opener :: found.content ++ d.closer :: t.drop found.stop
      ∧ d.Balanced found.content ∧ IsLeast {stop | d.EvenAt t start stop} found.stop
  /-- If it does not close, it is all that stands behind the opener. -/
  of_open : found.closed = false → found.content = t.drop (start + 1) ∧ found.stop = t.length

/-- Behind an opener one closer more has to come. -/
theorem evenAt_iff (hd : d.opener ≠ d.closer) (h : Rest t start (d.opener :: u)) :
    d.EvenAt t start stop
      ↔ ∃ q, q <+: u ∧ q.count d.closer = q.count d.opener + 1 ∧ stop = start + q.length + 1 := by
  unfold EvenAt
  rw [h.drop_eq]
  constructor
  · rintro ⟨p, hp, hne, heven, rfl⟩
    obtain ⟨q, rfl, hq⟩ := (List.prefix_cons_iff.1 hp).resolve_left hne
    rw [List.count_cons_of_ne hd, List.count_cons_self] at heven
    exact ⟨q, hq, heven, rfl⟩
  · rintro ⟨q, hq, heven, rfl⟩
    refine ⟨d.opener :: q, List.cons_prefix_cons.2 ⟨rfl, hq⟩, List.cons_ne_nil _ _, ?_, rfl⟩
    rw [List.count_cons_of_ne hd, List.count_cons_self, heven]

theorem Delimits.of_balanced (hd : d.opener ≠ d.closer) (hc : d.Balanced c)
    (h : Rest t start (d.opener :: c ++ d.closer :: rest)) :
    d.Delimits t start ⟨c, start + c.length + 2, true⟩ := by
  -- the closer behind the balanced text makes it even
  have heven : d.EvenAt t start (start + c.length + 2) := by
    rw [evenAt_iff hd h]
    refine ⟨c ++ [d.closer], ⟨rest, by simp⟩, ?_, ?_⟩
    · rw [List.count_append, List.count_append, List.count_singleton_self,
        List.count_singleton, hc.settled]
      simp [Ne.symm hd]
    · rw [List.length_append, List.length_singleton]
      omega
  -- and before that, no more is closed than was opened behind the opener
  have hleast : ∀ k, d.EvenAt t start k → start + c.length + 2 ≤ k := by
    intro k hk
    obtain ⟨q, hq, hcount, rfl⟩ := (evenAt_iff hd h).1 hk
    by_contra hlt
    have hinside : q <+: c := List.prefix_of_prefix_length_le hq (List.prefix_append c _) (by omega)
    have hcovered := hc.covered q hinside
    omega
  have hbehind : Rest t (start + c.length + 2) rest := by
    have hcloser := h.append.next
    rwa [List.length_cons, ← Nat.add_assoc] at hcloser
  refine ⟨⟨fun _ => ⟨_, heven⟩, fun _ => rfl⟩, fun _ => ⟨?_, hc, heven, hleast⟩, nofun⟩
  show t = t.take start ++ d.opener :: c ++ d.closer :: t.drop (start + c.length + 2)
  rw [hbehind.drop_eq, List.append_assoc, ← h.drop_eq, List.take_append_drop]

theorem Delimits.of_not_evenAt (h : Rest t start (d.opener :: u))
    (hnone : ∀ stop, ¬ d.EvenAt t start stop) : d.Delimits t start ⟨u, t.length, false⟩ where
  closed_iff := ⟨nofun, fun ⟨stop, hstop⟩ => absurd hstop (hnone stop)⟩
  of_closed := nofun
  of_open := fun _ => ⟨h.next.drop_eq.symm, rfl⟩

/-- A balanced text between delimiters is found as it stands there. -/
theorem found_argument_of_balanced (hd : d.opener ≠ d.closer) (hc : d.Balanced c)
    (h : Rest t start (d.opener :: c ++ d.closer :: rest)) :
    Found.of t (d.argument (c ++ d.closer :: rest)) = ⟨c, start + c.length + 2, true⟩ := by
  have hlength := h.length_eq
  rw [List.length_append, List.length_cons, List.length_cons] at hlength
  rw [argument_append hd (hc.passes hd)]
  show Found.mk c (t.length - rest.length) true = _
  rw [show t.length - rest.length = start + c.length + 2 by omega]

/-- Where no balanced text stands in front of a closer, an argument stays open. -/
theorem argument_of_not_balanced (hd : d.opener ≠ d.closer)
    (hnone : ¬ ∃ c rest, d.Balanced c ∧ u = c ++ d.closer :: rest) :
    d.argument u = ⟨u, [], false⟩ := by
  unfold argument
  split
  · next content behind hscan =>
    obtain ⟨v, hcontent, hv⟩ := depth?_of_balanced?_go hscan
    rw [List.reverse_nil, List.nil_append] at hcontent
    have hbalanced : d.Balanced content := (balanced_iff hd).2 (hcontent ▸ hv)
    exact absurd ⟨content, behind, hbalanced, eq_of_balanced?_go hscan⟩ hnone
  · rfl

/-- **The scan finds the argument**: with what is balanced behind the opener it closes,
and it stays open only where nothing is even. -/
theorem delimits_argument (hd : d.opener ≠ d.closer) (h : Rest t start (d.opener :: u)) :
    d.Delimits t start (Found.of t (d.argument u)) := by
  by_cases hclosed : ∃ c rest, d.Balanced c ∧ u = c ++ d.closer :: rest
  · obtain ⟨c, rest, hc, rfl⟩ := hclosed
    rw [found_argument_of_balanced hd hc h]
    exact .of_balanced hd hc h
  · have hnone : ∀ stop, ¬ d.EvenAt t start stop := by
      intro stop hstop
      obtain ⟨q, hq, hcount, -⟩ := (evenAt_iff hd h).1 hstop
      exact hclosed (exists_balanced_of_count_lt hd hq (by omega))
    rw [argument_of_not_balanced hd hclosed]
    exact .of_not_evenAt h hnone

end Delimiters

/-! ## §3. Both kinds of arguments. -/

variable {t u white : Text} {start : Nat}

/-- What is found at an opening brace. -/
theorem braceArgument?_drop (h : Rest t start (openBrace :: u)) :
    (braceArgument? (t.drop start)).map (Found.of t) = some (Found.of t (braces.argument u)) := by
  rw [h.drop_eq, braceArgument?_openBrace, Option.map_some]

/-- What is found at white with an opening bracket behind it. -/
theorem optionalArgument?_drop (hwhite : ∀ b ∈ white, isSpace b = true)
    (h : Rest t start (white ++ openBracket :: u)) :
    (optionalArgument? (t.drop start)).map (Found.of t)
      = some (Found.of t (brackets.argument u)) := by
  rw [h.drop_eq, optionalArgument?_white_append hwhite]
  rfl

/-- **An argument is what is balanced.**  At an opening brace, and at an opening bracket
behind white, an argument is found, with the content, the end and the closer that
`Delimits` demands.  And a balanced text that is written as an argument is found at its
offset, whatever stands in front of it or behind. -/
theorem arguments_delimited (t : Text) :
    (∀ start, t[start]? = some openBrace →
        ∃ found, (braceArgument? (t.drop start)).map (Found.of t) = some found
          ∧ braces.Delimits t start found)
      ∧ (∀ start white, (∀ b ∈ white, isSpace b = true) →
          white ++ [openBracket] <+: t.drop start →
          ∃ found, (optionalArgument? (t.drop start)).map (Found.of t) = some found
            ∧ brackets.Delimits t (start + white.length) found)
      ∧ (∀ x c y, braces.Balanced c → t = x ++ group c ++ y →
          (braceArgument? (t.drop x.length)).map (Found.of t)
            = some ⟨c, x.length + c.length + 2, true⟩)
      ∧ ∀ x white c y, (∀ b ∈ white, isSpace b = true) → brackets.Balanced c →
          t = x ++ white ++ option c ++ y →
          (optionalArgument? (t.drop x.length)).map (Found.of t)
            = some ⟨c, x.length + white.length + c.length + 2, true⟩ := by
  refine ⟨?_, ?_, ?_, ?_⟩
  · intro start hopener
    obtain ⟨hlt, hget⟩ := List.getElem?_eq_some_iff.1 hopener
    have hrest := Rest.of_le (Nat.le_of_lt hlt)
    rw [List.drop_eq_getElem_cons hlt, hget] at hrest
    exact ⟨_, braceArgument?_drop hrest, Delimiters.delimits_argument braces_ne hrest⟩
  · rintro start white hwhite ⟨u, hu⟩
    have hle : start ≤ t.length := by
      have hlength := congrArg List.length hu
      rw [List.length_append, List.length_append, List.length_singleton,
        List.length_drop] at hlength
      omega
    have hrest := Rest.of_le hle
    rw [← hu, List.append_assoc] at hrest
    exact ⟨_, optionalArgument?_drop hwhite hrest,
      Delimiters.delimits_argument brackets_ne hrest.append⟩
  · intro x c y hc ht
    have hrest : Rest t x.length (openBrace :: (c ++ closeBrace :: y)) :=
      ⟨x, rfl, by rw [ht]; simp [group]⟩
    rw [braceArgument?_drop hrest]
    exact congrArg some (Delimiters.found_argument_of_balanced braces_ne hc hrest)
  · intro x white c y hwhite hc ht
    have hrest : Rest t x.length (white ++ openBracket :: (c ++ closeBracket :: y)) :=
      ⟨x, rfl, by rw [ht]; simp [option]⟩
    rw [optionalArgument?_drop hwhite hrest]
    exact congrArg some (Delimiters.found_argument_of_balanced brackets_ne hc hrest.append)

/-- A group in which another stands, and a bracket. -/
def strayGroup : Text := utf8 "甲\x7b乙\x7d]"

/-- An option in which another stands, and a brace. -/
def strayOption : Text := utf8 "丙[]\x7b"

/-- Both, and behind them an option that does not close. -/
def strayDelimiters : Text :=
  utf8 "易" ++ group strayGroup ++ utf8 " \t" ++ option strayOption ++ utf8 " [丁"

/-- Each kind counts its own delimiters only. -/
theorem delimits_strayDelimiters :
    (strayDelimiters[3]? = some openBrace
        ∧ braces.Delimits strayDelimiters 3 ⟨strayGroup, 14, true⟩)
      ∧ (utf8 " " ++ [openBracket] <+: strayDelimiters.drop 24
        ∧ brackets.Delimits strayDelimiters 25 ⟨utf8 "丁", 29, false⟩)
      ∧ (braces.Balanced strayGroup
        ∧ (braceArgument? (strayDelimiters.drop 3)).map (Found.of strayDelimiters)
          = some ⟨strayGroup, 14, true⟩)
      ∧ brackets.Balanced strayOption
        ∧ (optionalArgument? (strayDelimiters.drop 14)).map (Found.of strayDelimiters)
          = some ⟨strayOption, 24, true⟩ := by
  have hbrace : strayDelimiters[3]? = some openBrace := by decide +kernel
  have hbracket : utf8 " " ++ [openBracket] <+: strayDelimiters.drop 24 := by decide +kernel
  have hgroup : braces.Balanced strayGroup := by decide +kernel
  have hoption : brackets.Balanced strayOption :=
    (Delimiters.balanced_iff brackets_ne).2 (by decide +kernel)
  obtain ⟨hbraces, hbrackets, hwritten, hwrittenOption⟩ := arguments_delimited strayDelimiters
  have hread : (braceArgument? (strayDelimiters.drop 3)).map (Found.of strayDelimiters)
      = some ⟨strayGroup, 14, true⟩ :=
    hwritten (utf8 "易") strayGroup (utf8 " \t" ++ option strayOption ++ utf8 " [丁") hgroup
      (by decide +kernel)
  have hreadOption : (optionalArgument? (strayDelimiters.drop 14)).map (Found.of strayDelimiters)
      = some ⟨strayOption, 24, true⟩ :=
    hwrittenOption (utf8 "易" ++ group strayGroup) (utf8 " \t") strayOption (utf8 " [丁")
      (by decide +kernel) hoption rfl
  have hopen : (optionalArgument? (strayDelimiters.drop 24)).map (Found.of strayDelimiters)
      = some ⟨utf8 "丁", 29, false⟩ := by decide +kernel
  obtain ⟨found, hfound, hdelimits⟩ := hbraces 3 hbrace
  cases hread.symm.trans hfound
  obtain ⟨found', hfound', hdelimits'⟩ := hbrackets 24 (utf8 " ") (by decide +kernel) hbracket
  cases hopen.symm.trans hfound'
  exact ⟨⟨hbrace, hdelimits⟩, ⟨hbracket, hdelimits'⟩, ⟨hgroup, hread⟩, hoption, hreadOption⟩

end FolioGrid.Markup
