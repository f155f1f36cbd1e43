/-
  FolioGrid.Proofs.Offsets.Elevation
  ────────────────────────────────
  **GLOSSES BY OFFSETS.**

  The text of a gloss is read with two offsets: where its last run began, and where
  the reader stands.  Each command that is found ends the run, says what becomes of
  the indent and of the break before the next words, and gives the offset from which
  both go on.

      obey     — what a command does to the segments made so far
      written  — the segments made so far, and those of the events to come
-/
import FolioGrid.Proofs.Dialect.Glosses
import FolioGrid.Proofs.Offsets.Reading

namespace FolioGrid.Offsets

open FolioGrid.Text FolioGrid.Markup FolioGrid.Elevation

/-! ## §1. Segments. -/

/-- Segments that are being made. -/
structure Builder where
  /-- The indent of the gloss. -/
  base : Int
  /-- Whether a break waits for words. -/
  pending : Bool
  /-- The segments so far. -/
  segments : List Segment

namespace Builder

/-- One more run of words, which may hold only blanks. -/
def add (b : Builder) (run : Text) (indent : Int) (force : Bool) : Checked Builder := do
  let words ← trim run
  pure (if words = [] then { b with pending := b.pending || force }
    else { b with
      segments := b.segments ++ [⟨words, indent - b.base, force || b.pending⟩]
      pending := false })

/-- A break before the next words. -/
def breakNext (b : Builder) : Builder := { b with pending := true }

/-- The segments so far and those of the events to come. -/
def written (b : Builder) (indent : Int) (events : List Event) : List Segment :=
  b.segments ++ segmentsFrom b.base indent b.pending events

/-- Words end the wait for a break; without words nothing is added. -/
theorem add_run (b : Builder) (t : Text) (indent : Int) :
    ∃ b', b.add t indent false = .ok b' ∧ b'.base = b.base
      ∧ ∀ events, b.written indent (.run t :: events) = b'.written indent events := by
  unfold add
  rw [trim_eq, ok_bind]
  by_cases hblank : Text.trim t = []
  · rw [if_pos hblank]
    refine ⟨_, rfl, rfl, ?_⟩
    intro events
    simp [written, segmentsFrom, hblank]
  · rw [if_neg hblank]
    refine ⟨_, rfl, rfl, ?_⟩
    intro events
    simp [written, segmentsFrom, hblank]

/-- The name of the dynasty starts a segment of its own. -/
theorem add_dynasty (b : Builder) (indent : Int) :
    ∃ b', b.add dynastyName indent true = .ok b' ∧ b'.base = b.base
      ∧ ∀ events, b.written indent (.dynasty :: events) = b'.written indent events := by
  have hname : Text.trim dynastyName = dynastyName := by decide +kernel
  have hne : dynastyName ≠ [] := by decide +kernel
  unfold add
  rw [trim_eq, ok_bind, hname, if_neg hne]
  refine ⟨_, rfl, rfl, ?_⟩
  intro events
  simp [written, segmentsFrom]

/-- So do raised words, from which on the indent is theirs. -/
theorem add_raise (b : Builder) (t : Text) (indent : Int) (level : Nat) :
    ∃ b', b.add t (raisedIndent b.base level) true = .ok b' ∧ b'.base = b.base
      ∧ ∀ events, b.written indent (.raise level t :: events)
        = b'.written (raisedIndent b.base level) events := by
  unfold add
  rw [trim_eq, ok_bind]
  by_cases hblank : Text.trim t = []
  · rw [if_pos hblank]
    refine ⟨_, rfl, rfl, ?_⟩
    intro events
    simp [written, segmentsFrom, hblank]
  · rw [if_neg hblank]
    refine ⟨_, rfl, rfl, ?_⟩
    intro events
    simp [written, segmentsFrom, hblank]

end Builder

/-! ## §2. Commands. -/

/-- What a command inside a gloss is for. -/
inductive Order where
  /-- A break. -/
  | lineBreak
  /-- Words that rise by a number of places. -/
  | raise
  /-- What follows stands above the margin. -/
  | aboveMargin
  /-- What follows stands at the margin. -/
  | atMargin
  /-- The name of the dynasty. -/
  | dynasty

/-- The commands, in the order in which they are looked for. -/
def orders : List (Text × Order) :=
  [(lineBreakToken, .lineBreak), (raiseToken, .raise), (aboveMarginToken, .aboveMargin),
    (atMarginToken, .atMargin), (dynastyToken, .dynasty)]

/-- The first of some commands that stands at an offset. -/
def orderAmong (t : Text) (i : Nat) : List (Text × Order) → Checked (Option (Text × Order))
  | [] => pure none
  | o :: os => do
    let here ← standsAt o.1 t i
    if here then pure (some o) else orderAmong t i os

/-- The command at an offset. -/
def orderAt (t : Text) (i : Nat) : Checked (Option (Text × Order)) := do
  let b ← itemAt t i
  if b = backslash then orderAmong t i orders else pure none

/-- What a command says, with what follows it, and what is left then. -/
def Order.read : Order → Text → List Event × Text
  | .lineBreak, rest => ([.lineBreak], rest)
  | .raise, rest =>
    match raiseArguments? rest with
    | some (event, rest) => ([event], rest)
    | none => ([], rest)
  | .aboveMargin, rest => ([.move highest], rest)
  | .atMargin, rest => ([.move 0], rest)
  | .dynasty, rest => ([.dynasty], rest)

section

variable {t u : Text} {i : Nat}

/-- The command that stands at an offset is the first in the list that fits. -/
theorem Rest.orderAmong (h : Rest t i u) (os : List (Text × Order)) :
    orderAmong t i os = .ok (os.find? fun o => o.1.isPrefixOf u) := by
  induction os with
  | nil => rfl
  | cons o os ih =>
    unfold Offsets.orderAmong
    rw [h.standsAt, ok_bind]
    cases hhere : o.1.isPrefixOf u with
    | true =>
      rw [if_pos rfl]
      simp only [List.find?_cons, hhere]
      rfl
    | false =>
      rw [if_neg Bool.false_ne_true, ih]
      simp only [List.find?_cons, hhere]

/-- All commands begin with a backslash. -/
theorem Rest.orderAt {b : UInt8} (h : Rest t i (b :: u)) :
    orderAt t i = .ok (orders.find? fun o => o.1.isPrefixOf (b :: u)) := by
  unfold Offsets.orderAt
  rw [h.itemAt, ok_bind]
  by_cases hb : b = backslash
  · rw [if_pos hb, h.orderAmong]
  · have hheads : ∀ o ∈ orders, ∃ rest, o.1 = backslash :: rest := by
      intro o ho
      simp only [orders, List.mem_cons, List.not_mem_nil, or_false] at ho
      rcases ho with rfl | rfl | rfl | rfl | rfl <;> exact ⟨_, rfl⟩
    have hnone : orders.find? (fun o => o.1.isPrefixOf (b :: u)) = none := by
      rw [List.find?_eq_none]
      intro o ho
      obtain ⟨rest, hrest⟩ := hheads o ho
      rw [hrest, List.isPrefixOf_iff_prefix, List.cons_prefix_cons]
      exact fun hp => hb hp.1.symm
    rw [if_neg hb, hnone]
    rfl

/-- A command is one of these, with what it says. -/
theorem command?_eq (u : Text) :
    command? u = (orders.find? fun o => o.1.isPrefixOf u).map fun o =>
      o.2.read (u.drop o.1.length) := by
  unfold command? after? orders
  cases h1 : lineBreakToken.isPrefixOf u with
  | true => simp [h1, Order.read]
  | false =>
    cases h2 : raiseToken.isPrefixOf u with
    | true =>
      cases hraise : raiseArguments? (u.drop raiseToken.length) with
      | none => simp [h1, h2, hraise, Order.read]
      | some raised => simp [h1, h2, hraise, Order.read]
    | false =>
      cases h3 : aboveMarginToken.isPrefixOf u with
      | true => simp [h1, h2, h3, Order.read]
      | false =>
        cases h4 : atMarginToken.isPrefixOf u with
        | true => simp [h1, h2, h3, h4, Order.read]
        | false =>
          cases h5 : dynastyToken.isPrefixOf u with
          | true => simp [h1, h2, h3, h4, h5, Order.read]
          | false => simp [h1, h2, h3, h4, h5]

end

/-! ## §3. Obeying commands. -/

/-- The number of places that an argument says. -/
def elevationLevel (t : Text) : Checked (Option Nat) := do
  let digits ← trim t
  if isNumeral digits then readCount digits else pure none

/-- The arguments of the command that raises words: how far, what, and the offset behind. -/
def raiseArguments (t : Text) (i : Nat) : Checked (Option (Nat × Text × Nat)) := do
  let level ← optionalArgument t i
  match level.filter (·.closed) with
  | none => pure none
  | some level => do
    let start ← skipWhile (fun b => b = ascii ' ') t level.stop
    let body ← braceArgument t start
    match body.filter (·.closed) with
    | none => pure none
    | some body => do
      let n ← elevationLevel level.content
      pure (n.map fun n => (n, body.content, body.stop))

/-- Where the reader stands behind a command. -/
structure Obeyed where
  /-- The offset from which to go on. -/
  stop : Nat
  /-- Where words stand now. -/
  indent : Int
  /-- The segments so far. -/
  builder : Builder

/-- The indent of words that rise, not above the highest place. -/
def clamped (place : Int) : Int := if place < highest then highest else place

/-- Do what a command says, that ends at an offset. -/
def obey (t : Text) (i : Nat) (indent : Int) (b : Builder) : Order → Checked Obeyed
  | .lineBreak => pure ⟨i, indent, b.breakNext⟩
  | .aboveMargin => pure ⟨i, highest, b.breakNext⟩
  | .atMargin => pure ⟨i, 0, b.breakNext⟩
  | .dynasty => do
    let b' ← b.add dynastyName indent true
    pure ⟨i, indent, b'⟩
  | .raise => do
    let raised ← raiseArguments t i
    match raised with
    | none => pure ⟨i, indent, b⟩
    | some (level, words, stop) => do
      let b' ← b.add words (clamped (b.base - level)) true
      pure ⟨stop, clamped (b.base - level), b'⟩

section

variable {t u : Text} {i : Nat}

/-- A level is read as a count, with white around it. -/
theorem elevationLevel_eq (t : Text) : elevationLevel t = .ok (count? (Text.trim t)) := by
  unfold elevationLevel
  rw [trim_eq, ok_bind]
  by_cases hdigits : isNumeral (Text.trim t) = true
  · rw [if_pos hdigits, readCount_eq hdigits]
  · have hnone : count? (Text.trim t) = none := by
      unfold count?
      rw [if_neg (by simp [hdigits])]
    rw [if_neg hdigits, hnone]
    rfl

/-- The arguments of a raise are found by offsets exactly where there are some. -/
theorem Rest.raiseArguments (h : Rest t i u) :
    raiseArguments? u = none ∧ raiseArguments t i = .ok none
      ∨ ∃ level words rest stop, raiseArguments? u = some (.raise level words, rest)
        ∧ Rest t stop rest ∧ raiseArguments t i = .ok (some (level, words, stop)) := by
  unfold Offsets.raiseArguments raiseArguments?
  rw [h.optionalArgument, ok_bind, filter_closed]
  simp only [Option.bind_eq_bind, Option.pure_def]
  cases hlevel : (optionalArgument? u).bind Argument.ifClosed with
  | none => exact Or.inl ⟨rfl, rfl⟩
  | some level =>
    have hbehind : Rest t (Found.of t level).stop level.rest := by
      obtain ⟨j, -, hj⟩ := h.skipWhile isSpace
      exact hj.found_closed hlevel
    obtain ⟨start, hstart, hrest⟩ := hbehind.skipWhile fun b => decide (b = ascii ' ')
    dsimp only [Option.map_some]
    rw [hstart, ok_bind, hrest.braceArgument, ok_bind, filter_closed, Option.bind_some]
    cases hbody : (braceArgument? (level.rest.dropWhile fun b => decide (b = ascii ' '))).bind
        Argument.ifClosed with
    | none => exact Or.inl ⟨rfl, rfl⟩
    | some body =>
      have hstop := hrest.found_closed hbody
      dsimp only [Option.map_some]
      rw [elevationLevel_eq, ok_bind, Option.bind_some]
      have hcontent : (Found.of t level).content = level.content := rfl
      rw [hcontent]
      cases count? (Text.trim level.content) with
      | none => exact Or.inl ⟨rfl, rfl⟩
      | some n => exact Or.inr ⟨n, body.content, body.rest, _, rfl, hstop, rfl⟩

/-- **Obeying a command** goes on with what it leaves, and writes what it says. -/
theorem obey_read (h : Rest t i u) (indent : Int) (b : Builder) (order : Order) :
    ∃ o, obey t i indent b order = .ok o ∧ Rest t o.stop (order.read u).2 ∧ o.builder.base = b.base
      ∧ ∀ events, b.written indent ((order.read u).1 ++ events)
        = o.builder.written o.indent events := by
  cases order with
  | lineBreak => exact ⟨_, rfl, h, rfl, fun _ => rfl⟩
  | aboveMargin => exact ⟨_, rfl, h, rfl, fun _ => rfl⟩
  | atMargin => exact ⟨_, rfl, h, rfl, fun _ => rfl⟩
  | dynasty =>
    obtain ⟨b', hadd, hbase, hwritten⟩ := b.add_dynasty indent
    refine ⟨⟨i, indent, b'⟩, ?_, h, hbase, hwritten⟩
    unfold obey
    rw [hadd]
    rfl
  | raise =>
    simp only [obey, Order.read]
    rcases h.raiseArguments with ⟨hnone, hraise⟩ | ⟨level, words, rest, stop, hsome, hrest, hraise⟩
    · rw [hnone, hraise]
      exact ⟨_, rfl, h, rfl, fun _ => rfl⟩
    · obtain ⟨b', hadd, hbase, hwritten⟩ := b.add_raise words indent level
      have hclamped : clamped (b.base - level) = raisedIndent b.base level := by
        unfold clamped raisedIndent highest
        omega
      rw [hsome, hraise, ok_bind]
      dsimp only
      rw [hclamped, hadd]
      exact ⟨_, rfl, hrest, hbase, hwritten⟩

end

/-! ## §4. The text of a gloss. -/

/-- The segments of a gloss's text at an indent. -/
def expand (t : Text) (base : Int) : Checked (List Segment) := do
  let b ← go 0 0 base ⟨base, false, []⟩
  pure b.segments
where
  /-- Read on from an offset, in a run that began at another. -/
  go (start i : Nat) (indent : Int) (b : Builder) : Checked Builder :=
    if _h : i < t.length then do
      let order ← orderAt t i
      match order with
      | none => go start (i + 1) indent b
      | some (token, order) => do
        let count ← difference i start
        let run ← slice t start count
        let b' ← b.add run indent false
        let o ← obey t (i + token.length) indent b' order
        if _hstop : t.length - o.stop < t.length - i then go o.stop o.stop o.indent o.builder
        else .error .stuck
    else do
      let last ← sliceFrom t start
      b.add last indent false
  termination_by t.length - i

/-- **Reading on** writes the segments of the events to come. -/
theorem Rest.expand_go {t passed u : Text} {start i : Nat} (h : Rest t start (passed.reverse ++ u))
    (hi : i = start + passed.length) (indent : Int) (b : Builder) :
    ∃ b', expand.go t start i indent b = .ok b'
      ∧ b'.segments = b.written indent (events.go passed u) := by
  have hrest : Rest t i u := by
    rw [hi, ← List.length_reverse]
    exact h.append
  fun_induction events.go passed u generalizing start i indent b with
  | case1 passed u found rest hcommand ih =>
    have hlt := length_of_command? hcommand
    rw [command?_eq] at hcommand
    obtain ⟨⟨token, order⟩, horder, hread⟩ := Option.map_eq_some_iff.1 hcommand
    have hhead := List.find?_some horder
    dsimp only at hhead
    have hbehind : Rest t (i + token.length) (u.drop token.length) :=
      hrest.drop (List.isPrefixOf_iff_prefix.1 hhead).length_le
    obtain ⟨b', hadd, hbase, hrun⟩ := b.add_run passed.reverse indent
    obtain ⟨o, hobey, hstop, -, hwritten⟩ := obey_read hbehind indent b' order
    have hread' : order.read (u.drop token.length) = (found, rest) := hread
    rw [hread'] at hstop hwritten
    dsimp only at hstop hwritten
    obtain ⟨b'', hgo, hsegments⟩ := ih hstop rfl o.indent o.builder hstop
    have hlength := hrest.length_eq
    have hlength' := hstop.length_eq
    cases u with
    | nil => exact absurd hlt (Nat.not_lt_zero _)
    | cons c u =>
      refine ⟨b'', ?_, ?_⟩
      · rw [expand.go, dif_pos hrest.lt, hrest.orderAt, horder, ok_bind]
        dsimp only
        rw [hi, difference_add, ok_bind, ← List.length_reverse, h.slice, ok_bind, hadd, ok_bind,
          List.length_reverse, ← hi, hobey, ok_bind, dif_pos (by omega)]
        exact hgo
      · rw [hsegments, List.cons_append, hrun, hwritten]
  | case2 passed hnone =>
    obtain ⟨b', hadd, -, hrun⟩ := b.add_run passed.reverse indent
    rw [List.append_nil] at h
    refine ⟨b', ?_, ?_⟩
    · rw [expand.go, dif_neg hrest.not_lt, h.sliceFrom, ok_bind, hadd]
    · rw [hrun, Builder.written, segmentsFrom, List.append_nil]
  | case3 passed c u hnone ih =>
    have hpush : Rest t start ((c :: passed).reverse ++ u) := by
      rwa [List.reverse_cons, List.append_assoc]
    obtain ⟨b', hgo, hsegments⟩ :=
      ih hpush (by rw [hi, List.length_cons, Nat.add_assoc]) indent b hrest.next
    rw [command?_eq, Option.map_eq_none_iff] at hnone
    refine ⟨b', ?_, hsegments⟩
    rw [expand.go, dif_pos hrest.lt, hrest.orderAt, hnone, ok_bind]
    exact hgo

/-- **An annotation is cut at the same commands**, however its place in the text is kept. -/
theorem expand_eq (t : Text) (base : Int) : expand t base = .ok (Elevation.expand t base).value := by
  obtain ⟨b, hgo, hsegments⟩ :=
    Rest.expand_go (show Rest t 0 (([] : Text).reverse ++ t) from Rest.start t) rfl base
      ⟨base, false, []⟩
  unfold expand
  rw [List.length_nil, Nat.add_zero] at hgo
  rw [hgo, ok_bind, pure_eq_ok, hsegments]
  rfl

/-! ## §5. Glosses. -/

/-- Segments as they go onto the grid. -/
def cleanSegments (carried : Bool) : List Segment → Checked (List Segment)
  | [] => pure []
  | s :: rest => do
    let words ← clean s.text
    if words = [] then cleanSegments (carried || s.force) rest
    else do
      let cleaned ← cleanSegments false rest
      pure (⟨words, s.delta, s.force || carried⟩ :: cleaned)

/-- The gloss of some segments at an indent. -/
def glossOf (indent : Int) (segments : List Segment) : Checked (Option Gloss) :=
  if segments = [] then pure none
  else do
    let first ← itemAt segments 0
    pure (some
      { text := segments.flatMap (·.text)
        indent := indent
        segments := if 1 < segments.length ∨ first.delta ≠ 0 then segments else [] })

/-- The text of a gloss, without style wrappers if they are to go. -/
def glossText (unwrap : Bool) (t : Text) : Checked Text :=
  if unwrap then unwrapStyles t else pure t

/-- Read a gloss at a cursor. -/
def readGloss (command : Text) (indent : Int) (unwrap : Bool) (c : Cursor) :
    Checked (List Block × Cursor) := do
  let (collected, next) ← collect command c
  let content ← glossText unwrap collected.content
  let segments ← expand content indent
  let cleaned ← cleanSegments false segments
  let gloss ← glossOf indent cleaned
  pure (gloss.toList.map .gloss, next)

/-- A segment that is empty once it is clean hands its break on to the next one. -/
theorem cleanSegments_eq (carried : Bool) (segments : List Segment) :
    cleanSegments carried segments = .ok (Catalogue.cleanSegments carried segments) := by
  induction segments generalizing carried with
  | nil => rfl
  | cons s rest ih =>
    unfold cleanSegments Catalogue.cleanSegments
    rw [clean_eq, ok_bind]
    by_cases hblank : Text.clean s.text = []
    · rw [if_pos hblank, if_pos hblank, ih]
    · rw [if_neg hblank, if_neg hblank, ih]
      rfl

/-- A gloss is made of what is left of its segments, if anything is. -/
theorem glossOf_eq (indent : Int) (segments : List Segment) :
    glossOf indent segments = .ok (Catalogue.gloss? indent segments) := by
  unfold glossOf
  cases segments with
  | nil => rfl
  | cons s rest =>
    rw [if_neg (List.cons_ne_nil s rest), (Rest.start (s :: rest)).itemAt, ok_bind]
    unfold Catalogue.gloss?
    -- one segment at the indent itself is no list of segments
    by_cases hrest : rest = []
    · by_cases hdelta : s.delta = 0
      · simp [hrest, hdelta]
      · simp [hrest, hdelta]
    · have hpos := List.length_pos_iff.2 hrest
      simp [hrest, hpos]

/-- Styles are taken off glosses, but not off notes. -/
theorem glossText_eq (unwrap : Bool) (t : Text) :
    glossText unwrap t = .ok (if unwrap then Markup.unwrapStyles t else t) := by
  cases unwrap with
  | true => exact unwrapStyles_eq t
  | false => rfl

/-- A gloss takes the lines of its argument from the cursor. -/
theorem readGloss_eq (command : Text) (indent : Int) (unwrap : Bool) (c : Cursor) :
    readGloss command indent unwrap c
      = .ok ((Catalogue.readGloss command indent unwrap c.rest).blocks,
          c.follow (Catalogue.readGloss command indent unwrap c.rest)) := by
  unfold readGloss
  rw [collect_eq, ok_bind]
  unfold Cursor.collect
  dsimp only
  rw [glossText_eq, ok_bind, expand_eq, ok_bind, cleanSegments_eq, ok_bind, glossOf_eq]
  rfl

/-! ## §6. Templates. -/

/-- A template whose markup can be read. -/
inductive Template where
  /-- The one that adds nothing. -/
  | plain
  /-- The concise catalogue. -/
  | catalogue
  deriving DecidableEq, Repr

/-- The dialect of a template. -/
def Template.dialect : Template → Dialect
  | .plain => .plain
  | .catalogue => Catalogue.dialect

/-- The dialect of a template is one of those that are built in. -/
theorem Template.builtIn (k : Template) : k.dialect.BuiltIn := by
  cases k with
  | plain => exact .plain
  | catalogue => exact .catalogue

/-- Read a command of a template, by name, at a cursor. -/
def Template.readCommand (k : Template) (name : Text) (c : Cursor) :
    Checked (Option (List Block × Cursor)) :=
  match k with
  | .plain => pure none
  | .catalogue =>
    if name = utf8 "注" then do
      let result ← readGloss (command "注") Catalogue.glossIndent true c
      pure (some result)
    else if name = utf8 "按" then do
      let result ← readGloss (command "按") Catalogue.noteIndent false c
      pure (some result)
    else pure none

/-- So a command is read in it as in the dialect itself. -/
theorem Template.readCommand_eq (k : Template) (name line : Text) (c : Cursor) :
    k.readCommand name c
      = .ok ((k.dialect.readCommand name line c.rest).map fun r => (r.blocks, c.follow r)) := by
  cases k with
  | plain => rfl
  | catalogue =>
    show _ = Except.ok ((Catalogue.readCommand name line c.rest).map _)
    unfold readCommand Catalogue.readCommand
    dsimp only
    by_cases hgloss : name = utf8 "注"
    · rw [if_pos hgloss, if_pos hgloss, readGloss_eq]
      rfl
    · rw [if_neg hgloss, if_neg hgloss]
      by_cases hnote : name = utf8 "按"
      · rw [if_pos hnote, if_pos hnote, readGloss_eq]
        rfl
      · rw [if_neg hnote, if_neg hnote]
        rfl

end FolioGrid.Offsets
