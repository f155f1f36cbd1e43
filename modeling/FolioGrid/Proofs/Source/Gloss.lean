/-
  FolioGrid.Proofs.Source.Gloss
  ────────────────────────────────
  **GLOSSES READ BACK.**

  The argument of a written gloss is words and then, one behind the other,
  words that rise.  Three things are to be said of it: as an argument it is
  balanced, it holds no other command, and elevation takes it apart into the
  segments from which it was written (`expand_argument`).
-/
import FolioGrid.Proofs.Markup.Argument
import FolioGrid.Proofs.Source.Basic

namespace FolioGrid

open FolioGrid.Text FolioGrid.Markup

/-! ## §1. The argument. -/

/-- How a segment that rises is written. -/
theorem Segment.Raised.exists_source {base : Int} {s : Segment} (h : s.Raised base) :
    ∃ n : Nat, n ≤ base + 1 ∧ s = ⟨s.text, -n, true⟩
      ∧ s.source = Elevation.raiseToken ++ option (natDecimal n) ++ group s.text := by
  obtain ⟨n, hdelta, hn⟩ := h.delta
  obtain ⟨t, delta, force⟩ := s
  cases (hdelta : delta = -n)
  cases (h.force : force = true)
  refine ⟨n, hn, rfl, ?_⟩
  show Elevation.raiseToken ++ option (decimal (- -(n : Int))) ++ group t = _
  rw [Int.neg_neg, decimal_natCast]

/-- The argument of a gloss whose first words are `t`. -/
def raisedArgument (t : Text) (raised : List Segment) : Text := t ++ raised.flatMap Segment.source

section

variable {base : Int} {t : Text} {raised : List Segment}

theorem Text.Plain.passes_braces (h : Plain t) : braces.Passes t :=
  .of_not_mem (h.noMarkup _ (by decide)) (h.noMarkup _ (by decide))

theorem Text.Plain.passes_brackets (h : Plain t) : brackets.Passes t :=
  .of_not_mem (h.noMarkup _ (by decide)) (h.noMarkup _ (by decide))

/-- A raised segment opens and closes its own brackets and braces. -/
theorem Segment.Raised.passes_source {s : Segment} (h : s.Raised base) :
    braces.Passes s.source := by
  obtain ⟨n, -, -, hsource⟩ := h.exists_source
  have hoption : braces.Passes (option (natDecimal n)) := by
    show braces.Passes ([openBracket] ++ natDecimal n ++ [closeBracket])
    exact ((Delimiters.Passes.of_not_mem (by decide) (by decide)).append
      (plain_natDecimal n).passes_braces).append (.of_not_mem (by decide) (by decide))
  rw [hsource]
  exact ((Delimiters.Passes.of_not_mem (by decide) (by decide)).append hoption).append
    (passes_group h.plain.passes_braces)

/-- So an argument with raised segments closes nothing but itself. -/
theorem passes_raisedArgument (h : Plain t) (hraised : ∀ s ∈ raised, s.Raised base) :
    braces.Passes (raisedArgument t raised) := by
  refine h.passes_braces.append ?_
  induction raised with
  | nil => exact .nil
  | cons s raised ih =>
    rw [List.flatMap_cons]
    exact (hraised s List.mem_cons_self).passes_source.append
      (ih fun s hs => hraised s (List.mem_cons_of_mem _ hs))

/-- And it stands on one line. -/
theorem lineFeed_not_mem_raisedArgument (h : Plain t) (hraised : ∀ s ∈ raised, s.Raised base) :
    lineFeed ∉ raisedArgument t raised := by
  unfold raisedArgument
  rw [List.mem_append, List.mem_flatMap, not_or]
  refine ⟨h.lineFeed_not_mem, ?_⟩
  rintro ⟨s, hs, hmem⟩
  obtain ⟨n, -, -, hsource⟩ := (hraised s hs).exists_source
  have htoken : lineFeed ∉ Elevation.raiseToken := by decide
  have hoption : lineFeed ∉ option (natDecimal n) :=
    not_mem_option (by decide) (by decide) (plain_natDecimal n).lineFeed_not_mem
  have hgroup : lineFeed ∉ group s.text :=
    not_mem_group (by decide) (by decide) (hraised s hs).plain.lineFeed_not_mem
  rw [hsource, List.mem_append, List.mem_append] at hmem
  rcases hmem with (hmem | hmem) | hmem
  · exact htoken hmem
  · exact hoption hmem
  · exact hgroup hmem

/-- The only commands in the argument are those that raise words: none of them
starts with another byte. -/
theorem not_infix_raisedArgument {b : UInt8} (hb : ∀ c ∈ delimiterBytes, c ∉ [backslash, b])
    (htoken : ¬ [backslash, b] <:+: Elevation.raiseToken) (h : Plain t)
    (hraised : ∀ s ∈ raised, s.Raised base) : ¬ [backslash, b] <:+: raisedArgument t raised := by
  intro hin
  have hrest := infix_of_infix_append h.backslash_not_mem hin
  clear hin h
  -- induction on the words that rise: only the token of each one has a backslash
  induction raised with
  | nil => exact absurd hrest (by simp)
  | cons s raised ih =>
    obtain ⟨n, -, -, hsource⟩ := (hraised s List.mem_cons_self).exists_source
    rw [List.flatMap_cons, hsource, infix_option_group_iff hb] at hrest
    rcases hrest with hrest | hrest | hrest | hrest
    · exact htoken hrest
    · exact not_infix_of_not_mem (plain_natDecimal n).backslash_not_mem hrest
    · exact not_infix_of_not_mem (hraised s List.mem_cons_self).plain.backslash_not_mem hrest
    · exact ih (fun s hs => hraised s (List.mem_cons_of_mem _ hs)) hrest

/-- A style command would start with another byte, so none is unwrapped. -/
theorem unwrapStyles_raisedArgument (h : Plain t) (hraised : ∀ s ∈ raised, s.Raised base) :
    unwrapStyles (raisedArgument t raised) = raisedArgument t raised := by
  have hnone : cut? styleCommand (raisedArgument t raised) = none := by
    rw [cut?_eq_none_iff]
    intro hin
    have hhead : [backslash, 0xE6] <:+: styleCommand := by decide +kernel
    exact not_infix_raisedArgument (by decide +kernel) (by decide +kernel) h hraised
      (hhead.trans hin)
  rw [unwrapStyles]
  split
  · rfl
  · next c hc =>
    rw [hnone] at hc
    cases hc

end

/-! ## §2. Elevation. -/

namespace Elevation

/-- Every command starts with a backslash. -/
theorem command?_eq_none_of_ne {b : UInt8} {rest : Text} (h : b ≠ backslash) :
    command? (b :: rest) = none := by
  have hnone : ∀ token : Text, after? (backslash :: token) (b :: rest) = none := by
    intro token
    rw [Option.eq_none_iff_forall_ne_some]
    intro u hu
    rw [after?_eq_some_iff, List.cons_append] at hu
    exact h (List.cons.inj hu).1
  unfold command?
  rw [show after? lineBreakToken (b :: rest) = none from hnone _,
    show after? raiseToken (b :: rest) = none from hnone _,
    show after? aboveMarginToken (b :: rest) = none from hnone _,
    show after? atMarginToken (b :: rest) = none from hnone _,
    show after? dynastyToken (b :: rest) = none from hnone _]

/-- Where no command stands, the byte belongs to the run. -/
theorem events_go_of_none {b : UInt8} {rest : Text} (h : command? (b :: rest) = none)
    (passed : Text) : events.go passed (b :: rest) = events.go (b :: passed) rest := by
  conv => lhs; unfold events.go
  split
  · next hsome =>
    rw [h] at hsome
    cases hsome
  · rfl

/-- Where one does, the run ends and another begins behind it. -/
theorem events_go_of_some {t rest : Text} {found : List Event}
    (h : command? t = some (found, rest)) (passed : Text) :
    events.go passed t = .run passed.reverse :: found ++ events.go [] rest := by
  conv => lhs; unfold events.go
  split
  · next hsome =>
    rw [h] at hsome
    cases hsome
    rfl
  · next hnone =>
    rw [h] at hnone
    cases hnone

/-- Words lengthen the run that is being read. -/
theorem events_go_append {t : Text} (h : backslash ∉ t) (passed rest : Text) :
    events.go passed (t ++ rest) = events.go (t.reverse ++ passed) rest := by
  induction t generalizing passed with
  | nil => rfl
  | cons b t ih =>
    rw [List.mem_cons, not_or] at h
    rw [List.cons_append, events_go_of_none (command?_eq_none_of_ne (Ne.symm h.1)), ih h.2,
      List.reverse_cons, List.append_assoc, List.singleton_append]

theorem events_go_nil (passed : Text) : events.go passed [] = [.run passed.reverse] := by
  unfold events.go
  rfl

/-- Words that rise are one event. -/
theorem command?_raise {n : Nat} {t : Text} (hn : n ≤ maxCount) (h : Plain t) (rest : Text) :
    command? (raiseToken ++ option (natDecimal n) ++ group t ++ rest)
      = some ([.raise n t], rest) := by
  have harguments : raiseArguments? (option (natDecimal n) ++ (group t ++ rest))
      = some (.raise n t, rest) := by
    unfold raiseArguments?
    rw [optionalArgument?_option (plain_natDecimal n).passes_brackets]
    -- no blank stands between the number and the words
    show ((braceArgument? ((group t ++ rest).dropWhile _)).bind Argument.ifClosed).bind _ = _
    have hdrop : (group t ++ rest).dropWhile (· = ascii ' ') = group t ++ rest := by
      unfold group
      rw [List.cons_append, List.cons_append, List.dropWhile_cons_of_neg (by decide)]
    rw [hdrop, braceArgument?_group h.passes_braces]
    show (count? (trim (natDecimal n))).bind _ = _
    rw [(plain_natDecimal n).solid.trim_eq, count?_natDecimal hn]
    rfl
  unfold command?
  rw [List.append_assoc, List.append_assoc,
    show after? lineBreakToken (raiseToken ++ (option (natDecimal n) ++ (group t ++ rest))) = none
      from rfl,
    after?_append]
  simp only [harguments]

/-- A raise is read back from its token, its level and its words. -/
theorem events_go_raise {n : Nat} {t : Text} (hn : n ≤ maxCount) (h : Plain t)
    (passed rest : Text) :
    events.go passed (raiseToken ++ option (natDecimal n) ++ group t ++ rest)
      = .run passed.reverse :: .raise n t :: events.go [] rest :=
  events_go_of_some (command?_raise hn h rest) passed

variable {base : Int} {t : Text} {raised : List Segment}

/-- What rises by no more than it may, stands where it says. -/
theorem raisedIndent_sub {n : Nat} (h : n ≤ base + 1) : raisedIndent base n - base = -n := by
  unfold raisedIndent highest
  omega

/-- A run without words gives no segment, one of plain words gives a segment. -/
theorem segmentsFrom_run_nil (indent : Int) (pending : Bool) (es : List Event) :
    segmentsFrom base indent pending (.run [] :: es) = segmentsFrom base indent pending es := rfl

/-- Plain words are a segment of their own. -/
theorem segmentsFrom_run (h : Plain t) (indent : Int) (pending : Bool) (es : List Event) :
    segmentsFrom base indent pending (.run t :: es)
      = ⟨t, indent - base, pending⟩ :: segmentsFrom base indent false es := by
  show (if trim t = [] then _ else _) = _
  rw [h.solid.trim_eq, if_neg h.nonempty]

/-- And raised ones start one with a break. -/
theorem segmentsFrom_raise {n : Nat} (hn : n ≤ base + 1) (h : Plain t) (indent : Int)
    (pending : Bool) (es : List Event) :
    segmentsFrom base indent pending (.raise n t :: es)
      = ⟨t, -n, true⟩ :: segmentsFrom base (raisedIndent base n) false es := by
  show (if trim t = [] then _ else _) = _
  rw [h.solid.trim_eq, if_neg h.nonempty, raisedIndent_sub hn]

/-- What stands behind the words of a gloss, in events: read from any indent they
give the segments back, and none leads above the highest place. -/
theorem exists_events_raised (hbase : base ≤ 4) (hraised : ∀ s ∈ raised, s.Raised base) :
    ∃ es, (∀ passed, events.go passed (raised.flatMap Segment.source) = .run passed.reverse :: es)
      ∧ (∀ indent, segmentsFrom base indent false es = raised)
      ∧ es.filterMap (clamping? base) = [] := by
  -- the indent is kept from one word to the next, so it has to be any in the hypothesis
  induction raised with
  | nil => exact ⟨[], events_go_nil, fun _ => rfl, rfl⟩
  | cons s raised ih =>
    obtain ⟨es, hevents, hsegments, hclamping⟩ :=
      ih fun s hs => hraised s (List.mem_cons_of_mem _ hs)
    have hs := hraised s List.mem_cons_self
    obtain ⟨n, hn, heq, hsource⟩ := hs.exists_source
    have hcount : n ≤ maxCount := by
      unfold maxCount
      omega
    refine ⟨.raise n s.text :: .run [] :: es, ?_, ?_, ?_⟩
    · intro passed
      rw [List.flatMap_cons, hsource, events_go_raise hcount hs.plain, hevents, List.reverse_nil]
    · intro indent
      rw [segmentsFrom_raise hn hs.plain, segmentsFrom_run_nil, hsegments, ← heq]
    · have hlow : clamping? base (.raise n s.text) = none := by
        show (if base - n < highest then _ else none) = none
        rw [if_neg]
        unfold highest
        omega
      rw [List.filterMap_cons_none hlow, List.filterMap_cons_none rfl, hclamping]

/-- **Elevation gives the segments of a written gloss back.** -/
theorem expand_raisedArgument (hbase : base ≤ 4) (h : Plain t)
    (hraised : ∀ s ∈ raised, s.Raised base) :
    expand (raisedArgument t raised) base = ⟨⟨t, 0, false⟩ :: raised, []⟩ := by
  obtain ⟨es, hevents, hsegments, hclamping⟩ := exists_events_raised hbase hraised
  have hall : events (raisedArgument t raised) = .run t :: es := by
    show events.go [] (t ++ raised.flatMap Segment.source) = _
    rw [events_go_append h.backslash_not_mem, hevents, List.append_nil, List.reverse_reverse]
  unfold expand
  rw [hall, segmentsFrom_run h, hsegments, List.filterMap_cons_none rfl, hclamping, Int.sub_self]

end Elevation

/-! ## §3. The command. -/

namespace Catalogue

variable {base : Int} {t : Text} {raised : List Segment}

/-- Segments of plain words are left as they are. -/
theorem cleanSegments_eq_self {segments : List Segment} (h : ∀ s ∈ segments, Plain s.text) :
    cleanSegments false segments = segments := by
  induction segments with
  | nil => rfl
  | cons s segments ih =>
    have hs := h s List.mem_cons_self
    show (if clean s.text = [] then _ else _) = _
    rw [hs.clean_eq, if_neg hs.nonempty, ih fun s hs => h s (List.mem_cons_of_mem _ hs),
      Bool.or_false]

/-- The gloss whose first words are `t`. -/
def raisedGloss (base : Int) (t : Text) (raised : List Segment) : Gloss where
  text := t ++ raised.flatMap (·.text)
  indent := base
  segments := if raised = [] then [] else ⟨t, 0, false⟩ :: raised

/-- **A gloss is read back** from a line with its command. -/
theorem readGloss_line {command line : Text} {unwrap : Bool} (hbase : base ≤ 4) (h : Plain t)
    (hraised : ∀ s ∈ raised, s.Raised base) (below : List Text)
    (hcollect : collect command (line :: below) = ⟨line, raisedArgument t raised, 1, true⟩) :
    readGloss command base unwrap (line :: below)
      = .ofBlock (.gloss (raisedGloss base t raised)) := by
  -- nothing to unwrap, nothing to clean: the segments are those of elevation
  have hunwrap : (if unwrap then unwrapStyles (raisedArgument t raised)
      else raisedArgument t raised) = raisedArgument t raised := by
    split
    · exact unwrapStyles_raisedArgument h hraised
    · rfl
  have hplain : ∀ s ∈ (⟨t, 0, false⟩ : Segment) :: raised, Plain s.text := by
    intro s hs
    rcases List.mem_cons.1 hs with rfl | hs
    · exact h
    · exact (hraised s hs).plain
  have hgloss : gloss? base (⟨t, 0, false⟩ :: raised) = some (raisedGloss base t raised) := by
    cases raised with
    | nil => rfl
    | cons s raised => rfl
  unfold readGloss
  rw [hcollect]
  simp only [hunwrap, Elevation.expand_raisedArgument hbase h hraised,
    cleanSegments_eq_self hplain, hgloss]
  rfl

end Catalogue

end FolioGrid
