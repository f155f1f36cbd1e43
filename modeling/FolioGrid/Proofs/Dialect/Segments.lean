/-
  FolioGrid.Proofs.Dialect.Segments
  ────────────────────────────────
  **WHAT THE EVENTS OF A GLOSS COME TO.**

  The reader of a gloss goes from event to event with an indent and a pending break
  in hand.  What it makes of an event can be read off the events before it:

      Event.shown?  — the words that the event brings, if they are no blanks
      indentBehind  — the indent is the last one that an event has set
      breakBehind   — a break is pending if one has come since words were shown

  `segmentsFrom_behind` keeps the two in step with the reader, and with the grammar
  (`reads_iff`) this is all that `expand` does.

  Main result: `value_expand`.
-/
import FolioGrid.Proofs.Dialect.Grammar
import Mathlib.Data.List.DropRight

namespace FolioGrid.Elevation

open FolioGrid.Text

/-! ## §1. One event. -/

/-- A piece of a text as it is shown: without the blanks around it, if anything is left. -/
def shownWords? (t : Text) : Option Text := if trim t = [] then none else some (trim t)

/-- The words that an event brings onto the grid. -/
def Event.shown? : Event → Option Text
  | .run t => shownWords? t
  | .raise _ t => shownWords? t
  | .dynasty => some dynastyName
  | .lineBreak => none
  | .move _ => none

/-- The indent that an event sets in a gloss at an indent `base`. -/
def Event.place? (base : Int) : Event → Option Int
  | .move place => some place
  | .raise level _ => some (max (base - level) (-1))
  | .run _ => none
  | .lineBreak => none
  | .dynasty => none

/-- Whether an event is a break: all are but words between commands. -/
def Event.breaks : Event → Bool
  | .run _ => false
  | _ => true

/-- The indent behind some events: what the last one sets that sets any. -/
def indentBehind (base : Int) (before : List Event) : Int :=
  (before.filterMap (Event.place? base)).getLastD base

/-- Whether a break has come since words were shown last. -/
def breakBehind (before : List Event) : Bool :=
  (before.rtakeWhile (·.shown?.isNone)).any Event.breaks

/-- The segment of an event with some events before it.  What the event itself sets or
breaks counts for its own words. -/
def segment? (base : Int) (before : List Event) (e : Event) : Option Segment :=
  e.shown?.map fun words =>
    { text := words
      delta := indentBehind base (before ++ [e]) - base
      force := breakBehind before || e.breaks }

/-! ## §2. One step of the reader. -/

variable {base indent : Int} {pending : Bool} {before es : List Event} {e : Event} {t words : Text}

/-- Words are shown unless they are blank, -/
theorem shownWords?_eq_none_iff : shownWords? t = none ↔ trim t = [] := by
  unfold shownWords?
  split
  · next h => exact ⟨fun _ => h, fun _ => rfl⟩
  · next h => exact ⟨nofun, fun hnil => absurd hnil h⟩

/-- and then trimmed. -/
theorem shownWords?_eq_some_iff : shownWords? t = some words ↔ trim t = words ∧ trim t ≠ [] := by
  unfold shownWords?
  split
  · next h => exact ⟨nofun, fun ⟨_, hne⟩ => absurd h hne⟩
  · next h => exact ⟨fun heq => ⟨Option.some.inj heq, h⟩, fun ⟨heq, _⟩ => congrArg some heq⟩

/-- An event that shows nothing may set the indent and leave a break. -/
theorem segmentsFrom_cons_of_none (h : e.shown? = none) :
    segmentsFrom base indent pending (e :: es)
      = segmentsFrom base ((e.place? base).getD indent) (pending || e.breaks) es := by
  cases e with
  | run t =>
    show (if trim t = [] then _ else _) = segmentsFrom base indent (pending || false) es
    rw [if_pos (shownWords?_eq_none_iff.1 h), Bool.or_false]
  | raise level t =>
    show (if trim t = [] then _ else _)
      = segmentsFrom base (raisedIndent base level) (pending || true) es
    rw [if_pos (shownWords?_eq_none_iff.1 h), Bool.or_true]
  | lineBreak =>
    show _ = segmentsFrom base indent (pending || true) es
    rw [Bool.or_true]
    rfl
  | move place =>
    show _ = segmentsFrom base place (pending || true) es
    rw [Bool.or_true]
    rfl
  | dynasty => cases h

/-- An event that shows words gives them what it sets, and takes the break along. -/
theorem segmentsFrom_cons_of_some (h : e.shown? = some words) :
    segmentsFrom base indent pending (e :: es)
      = ⟨words, (e.place? base).getD indent - base, pending || e.breaks⟩
        :: segmentsFrom base ((e.place? base).getD indent) false es := by
  cases e with
  | run t =>
    obtain ⟨rfl, hne⟩ := shownWords?_eq_some_iff.1 h
    show (if trim t = [] then _ else _)
      = ⟨trim t, indent - base, pending || false⟩ :: segmentsFrom base indent false es
    rw [if_neg hne, Bool.or_false]
  | raise level t =>
    obtain ⟨rfl, hne⟩ := shownWords?_eq_some_iff.1 h
    show (if trim t = [] then _ else _)
      = ⟨trim t, raisedIndent base level - base, pending || true⟩
        :: segmentsFrom base (raisedIndent base level) false es
    rw [if_neg hne, Bool.or_true]
  | dynasty =>
    cases h
    show _ = ⟨dynastyName, indent - base, pending || true⟩ :: segmentsFrom base indent false es
    rw [Bool.or_true]
    rfl
  | lineBreak => cases h
  | move place => cases h

/-! ## §3. The events before. -/

/-- The last event that leads to a place decides the indent. -/
theorem indentBehind_concat (base : Int) (before : List Event) (e : Event) :
    indentBehind base (before ++ [e]) = (e.place? base).getD (indentBehind base before) := by
  unfold indentBehind
  rw [List.filterMap_append]
  cases h : e.place? base with
  | none => rw [List.filterMap_cons_none h, List.filterMap_nil, List.append_nil, Option.getD_none]
  | some place =>
    rw [List.filterMap_cons_some h, List.filterMap_nil, List.getLastD_concat, Option.getD_some]

/-- A break waits as long as no words are shown, -/
theorem breakBehind_concat_of_none (h : e.shown? = none) :
    breakBehind (before ++ [e]) = (breakBehind before || e.breaks) := by
  unfold breakBehind
  rw [List.rtakeWhile_concat_pos _ _ _ (by rw [h]; rfl), List.any_append, List.any_cons,
    List.any_nil, Bool.or_false]

/-- and no longer. -/
theorem breakBehind_concat_of_some (h : e.shown? = some words) :
    breakBehind (before ++ [e]) = false := by
  unfold breakBehind
  rw [List.rtakeWhile_concat_neg _ _ _ (by rw [h]; exact Bool.false_ne_true), List.any_nil]

/-- **The reader's state is what the events behind it say**, and it stays so from one event
to the next. -/
theorem segmentsFrom_behind (base : Int) (before es : List Event) :
    segmentsFrom base (indentBehind base before) (breakBehind before) es
      = es.zipIdx.filterMap fun p => segment? base (before ++ es.take p.2) p.1 := by
  induction es generalizing before with
  | nil => rfl
  | cons e es ih =>
    -- the events behind the first one have it before them, too
    have hrest : (es.zipIdx 1).filterMap
          (fun p => segment? base (before ++ (e :: es).take p.2) p.1)
        = segmentsFrom base (indentBehind base (before ++ [e])) (breakBehind (before ++ [e])) es := by
      rw [ih, List.zipIdx_succ, List.filterMap_map]
      refine congrArg (List.filterMap · es.zipIdx) (funext fun p => ?_)
      simp
    have hfirst : segment? base (before ++ (e :: es).take 0) e = segment? base before e := by
      rw [List.take_zero, List.append_nil]
    rw [List.zipIdx_cons, List.filterMap_cons, hrest, indentBehind_concat, hfirst]
    unfold segment?
    cases h : e.shown? with
    | none => rw [segmentsFrom_cons_of_none h, breakBehind_concat_of_none h, Option.map_none]
    | some words =>
      rw [segmentsFrom_cons_of_some h, breakBehind_concat_of_some h, indentBehind_concat,
        Option.map_some]

/-! ## §4. Texts. -/

/-- **The meaning of elevation.** A text has one reading as a list of events.  Its segments
are those of the events that bring words, in order: the words without the blanks around
them, at the indent that was last set, and with a break if one has come since the words
before. -/
theorem value_expand (t : Text) (base : Int) :
    ∃ es, (∀ es', Reads t es' ↔ es' = es)
      ∧ (expand t base).value
        = es.zipIdx.filterMap fun p => segment? base (es.take p.2) p.1 :=
  ⟨events t, fun _ => reads_iff, segmentsFrom_behind base [] (events t)⟩

/-- A raise without words leaves its indent and its break to the words behind it; one
without arguments is passed over. -/
example : (expand (utf8 "甲\\平抬\\\\乙\\相对抬头[1]\x7b\x7d丙\\國朝\\相对抬头丁") 2).value
    = [⟨utf8 "甲", 0, false⟩, ⟨utf8 "乙", -2, true⟩, ⟨utf8 "丙", -1, true⟩,
      ⟨utf8 "國朝", -1, true⟩, ⟨utf8 "丁", -1, false⟩] := by
  decide +kernel

end FolioGrid.Elevation
