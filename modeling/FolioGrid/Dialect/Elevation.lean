/-
  FolioGrid.Dialect.Elevation
  ────────────────────────────────
  **ELEVATION.**

  Words that name the throne stand higher than the words around them, as far
  as one place above the top margin.  Inside a gloss the markup says so
  with commands, which are read in two steps:

      events    — the text as a list of runs and commands
      segmentsFrom — the runs with their indents and breaks

      `\\`            a break
      `\相对抬头[n]`   and a brace argument: its words, and what follows, rise
                      by `n` places
      `\单抬`          what follows stands one place above the margin
      `\平抬`          what follows stands at the margin
      `\國朝`          a break and the words 國朝, where they are

  A break that no words follow at once is kept for the next words.
-/
import FolioGrid.Markup.Argument
import FolioGrid.Markup.Command
import FolioGrid.Notice
import FolioGrid.Text.Number

namespace FolioGrid.Elevation

open FolioGrid.Text FolioGrid.Markup

/-! ## §1. Events. -/

/-- A part of a gloss's text. -/
inductive Event where
  /-- Words between commands. -/
  | run (text : Text)
  /-- A break. -/
  | lineBreak
  /-- What follows stands at an indent. -/
  | move (indent : Int)
  /-- A break and the name of the dynasty. -/
  | dynasty
  /-- Words that rise by a number of places. -/
  | raise (level : Nat) (text : Text)
  deriving DecidableEq, Repr

/-- The command of a break. -/
def lineBreakToken : Text := [backslash, backslash]

/-- The command that raises words by a number of places. -/
def raiseToken : Text := command "相对抬头"

/-- The command that raises what follows above the margin. -/
def aboveMarginToken : Text := command "单抬"

/-- The command that raises what follows to the margin. -/
def atMarginToken : Text := command "平抬"

/-- The command that names the dynasty. -/
def dynastyToken : Text := command "國朝"

/-- The highest place, one above the top margin. -/
def highest : Int := -1

/-- The arguments of the command that raises words, and what follows them. -/
def raiseArguments? (t : Text) : Option (Event × Text) := do
  let level ← (optionalArgument? t).bind Argument.ifClosed
  let body ← (braceArgument? (level.rest.dropWhile (· = ascii ' '))).bind Argument.ifClosed
  let n ← count? (trim level.content)
  pure (.raise n body.content, body.rest)

/-- The command with which a text starts, and what follows it.  A command that
raises words but lacks its arguments is no event, and what stands there in
their place is read on as text. -/
def command? (t : Text) : Option (List Event × Text) :=
  if let some rest := after? lineBreakToken t then some ([.lineBreak], rest)
  else if let some rest := after? raiseToken t then
    match raiseArguments? rest with
    | some (event, rest) => some ([event], rest)
    | none => some ([], rest)
  else if let some rest := after? aboveMarginToken t then some ([.move highest], rest)
  else if let some rest := after? atMarginToken t then some ([.move 0], rest)
  else if let some rest := after? dynastyToken t then some ([.dynasty], rest)
  else none

/-- What follows the arguments of a raise is no longer than the text. -/
theorem length_of_raiseArguments? {t rest : Text} {event : Event}
    (h : raiseArguments? t = some (event, rest)) : rest.length ≤ t.length := by
  simp only [raiseArguments?, Option.bind_eq_bind, Option.bind_eq_some_iff, Argument.ifClosed,
    Option.ite_none_right_eq_some, Option.pure_def, Option.some.injEq, Prod.mk.injEq] at h
  obtain ⟨level, ⟨l, hl, -, rfl⟩, body, ⟨b, hb, -, rfl⟩, n, -, -, rfl⟩ := h
  have h1 := length_rest_lt_of_optionalArgument? hl
  have h2 := Delimiters.length_lt_of_argument? hb
  have h3 : (l.rest.dropWhile (· = ascii ' ')).length ≤ l.rest.length :=
    (List.dropWhile_sublist _).length_le
  omega

/-- What follows a command is shorter than the text. -/
theorem length_of_command? {t rest : Text} {events : List Event}
    (h : command? t = some (events, rest)) : rest.length < t.length := by
  have step : ∀ {head u : Text}, after? head t = some u → head ≠ [] → u.length < t.length := by
    intro head u hu hne
    have := length_of_after? hu
    have := List.length_pos_iff.2 hne
    omega
  unfold command? at h
  split at h
  · next hu => cases h; exact step hu (by decide)
  split at h
  · next u hu =>
    have hlt := step hu (by decide)
    split at h
    · next hr =>
      cases h
      have := length_of_raiseArguments? hr
      omega
    · cases h; exact hlt
  split at h
  · next hu => cases h; exact step hu (by decide)
  split at h
  · next hu => cases h; exact step hu (by decide)
  split at h
  · next hu => cases h; exact step hu (by decide)
  · cases h

/-- The runs and commands of a text, in order. -/
def events (t : Text) : List Event := go [] t
where
  /-- The events after a run whose bytes so far are given in reverse. -/
  go (passed : Text) (t : Text) : List Event :=
    match _h : command? t with
    | some (found, rest) => .run passed.reverse :: found ++ go [] rest
    | none =>
      match t with
      | [] => [.run passed.reverse]
      | b :: rest => go (b :: passed) rest
  termination_by t.length
  decreasing_by
    · exact length_of_command? _h
    · simp

/-! ## §2. Segments. -/

/-- The words of the dynasty's name. -/
def dynastyName : Text := utf8 "國朝"

/-- The indent of words that rise by a number of places. -/
def raisedIndent (base : Int) (level : Nat) : Int := max (base - level) highest

/-- The segments of events at a gloss's indent `base`, where words stand
at `indent` now and a break may be pending. -/
def segmentsFrom (base indent : Int) (pending : Bool) : List Event → List Segment
  | [] => []
  | .run t :: rest =>
    if trim t = [] then segmentsFrom base indent pending rest
    else ⟨trim t, indent - base, pending⟩ :: segmentsFrom base indent false rest
  | .lineBreak :: rest => segmentsFrom base indent true rest
  | .move place :: rest => segmentsFrom base place true rest
  | .dynasty :: rest => ⟨dynastyName, indent - base, true⟩ :: segmentsFrom base indent false rest
  | .raise level t :: rest =>
    if trim t = [] then segmentsFrom base (raisedIndent base level) true rest
    else
      ⟨trim t, raisedIndent base level - base, true⟩
        :: segmentsFrom base (raisedIndent base level) false rest

/-- The report on an event that leads above the highest place. -/
def clamping? (base : Int) : Event → Option Notice
  | .raise level _ =>
    if base - level < highest then some (.elevationClamped level base highest) else none
  | _ => none

/-- The segments of a gloss's text at an indent. -/
def expand (t : Text) (base : Int) : Logged (List Segment) where
  value := segmentsFrom base base false (events t)
  notices := (events t).filterMap (clamping? base)

end FolioGrid.Elevation
