/-
  FolioGrid.Proofs.Offsets.Reading
  ────────────────────────────────
  **SINGLE LINES BY OFFSETS.**

  A heading, an entry and a styled passage reach to offsets that are looked for
  from different ends: the last closing brace of a line may stand in front of the
  place where its argument would begin, so each difference is taken only after the
  two have been compared.
-/
import FolioGrid.Proofs.Offsets.Collect
import FolioGrid.Proofs.Offsets.Markup
import FolioGrid.Proofs.Offsets.Pieces
import FolioGrid.Proofs.Text.Characters
import FolioGrid.Reading.Line

namespace FolioGrid.Offsets

open FolioGrid.Text FolioGrid.Markup

variable {t u head : Text} {b : UInt8} {i : Nat}

/-! ## §1. Heads and last occurrences. -/

/-- Whether a text starts with a head. -/
def startsWith (t head : Text) : Checked Bool :=
  if head.length ≤ t.length then standsAt head t 0 else pure false

/-- A head is compared only with a text that is long enough to have it. -/
theorem startsWith_eq (t head : Text) : startsWith t head = .ok (after? head t).isSome := by
  unfold startsWith after?
  by_cases hlength : head.length ≤ t.length
  · rw [if_pos hlength, (Rest.start t).standsAt]
    by_cases hhead : head.isPrefixOf t = true
    · rw [if_pos hhead, hhead]
      rfl
    · rw [if_neg hhead, Bool.eq_false_iff.2 hhead]
      rfl
  · have hhead : ¬ head.isPrefixOf t = true := by
      rw [List.isPrefixOf_iff_prefix]
      exact fun h => hlength h.length_le
    rw [if_neg hlength, if_neg hhead]
    rfl

/-- Behind its head, a text reads what is left of it. -/
theorem Rest.of_after? (h : after? head t = some u) : Rest t head.length u := by
  rw [after?_eq_some_iff] at h
  rw [h]
  exact Rest.of_append head u

/-- The last occurrence in a text is the last one behind an offset or, if there is none, one
in front of it. -/
theorem Rest.findLast? (h : Rest t i u) (b : UInt8) :
    (∃ x, beforeLast? b u = some x ∧ findLast? b t = some (i + x.length))
      ∨ beforeLast? b u = none ∧ ∀ j, findLast? b t = some j → j < i := by
  obtain ⟨before, rfl, rfl⟩ := h
  unfold Offsets.findLast? beforeLast?
  rw [List.reverse_append, List.dropWhile_append]
  cases hu : u.reverse.dropWhile (· != b) with
  | nil =>
    right
    refine ⟨rfl, ?_⟩
    intro j hj
    rw [if_pos List.isEmpty_nil] at hj
    have hle := (List.dropWhile_sublist (· != b) (l := before.reverse)).length_le
    cases hbefore : before.reverse.dropWhile (· != b) with
    | nil => simp [hbefore] at hj
    | cons c rest =>
      rw [hbefore, List.length_cons, List.length_reverse] at hle
      simp only [hbefore, Option.map_some, List.length_reverse, Option.some.injEq] at hj
      omega
  | cons c rest =>
    left
    exact ⟨rest.reverse, rfl, by simp⟩

/-! ## §2. Numerals. -/

/-- The number of a numeral. -/
def readNumber (t : Text) : Checked Nat :=
  if isNumeral t then
    if numeralValue t ≤ maxCount then .ok (numeralValue t) else .error .tooLarge
  else .error .noNumeral

/-- The count of a numeral, if it is not too large. -/
def readCount (t : Text) : Checked (Option Nat) :=
  match readNumber t with
  | .ok n => .ok (some n)
  | .error .tooLarge => .ok none
  | .error fault => .error fault

/-- A numeral is read as a count unless it is too large for one. -/
theorem readCount_eq (h : isNumeral t = true) : readCount t = .ok (count? t) := by
  unfold readCount readNumber count?
  rw [if_pos h, h, Bool.true_and]
  by_cases hn : numeralValue t ≤ maxCount
  · simp [hn]
  · simp [hn]

/-! ## §3. Headings and styled passages. -/

/-- The title of the chapter that a line opens. -/
def chapterTitle (line : Text) : Checked (Option Text) := do
  let here ← startsWith line Line.chapterOpening
  if here then
    match findLast? closeBrace line with
    | none => pure none
    | some close =>
      if close ≤ Line.chapterOpening.length then pure none
      else do
        let count ← difference close Line.chapterOpening.length
        let title ← slice line Line.chapterOpening.length count
        let words ← clean title
        pure (some words)
  else pure none

/-- The last closing brace of a heading may stand in front of its opening one, and then
there is no title. -/
theorem chapterTitle_eq (line : Text) : chapterTitle line = .ok (Line.chapterTitle? line) := by
  unfold chapterTitle Line.chapterTitle?
  rw [startsWith_eq, ok_bind]
  cases ha : after? Line.chapterOpening line with
  | none => rfl
  | some rest =>
    have h := Rest.of_after? ha
    rw [Option.isSome_some, if_pos rfl, Option.bind_some]
    rcases h.findLast? closeBrace with ⟨x, hx, hlast⟩ | ⟨hx, hlast⟩
    · obtain ⟨after, rfl⟩ := beforeLast?_eq_some hx
      rw [hx, hlast]
      dsimp only
      by_cases hnil : x = []
      · rw [if_pos (by simp [hnil]), hnil]
        rfl
      · have hpos := List.length_pos_iff.2 hnil
        rw [if_neg (by omega), difference_add, ok_bind, h.slice, ok_bind, clean_eq,
          Option.filter_some, if_pos (by simpa using hnil)]
        rfl
    · rw [hx]
      cases hclose : findLast? closeBrace line with
      | none => rfl
      | some close =>
        have hlt := hlast close hclose
        dsimp only
        rw [if_pos (by omega)]
        rfl

/-- The words of a line that is one style wrapper with options. -/
def styledText (line : Text) : Checked (Option Text) := do
  let here ← startsWith line styleCommand
  if here then
    let options ← optionalArgument line styleCommand.length
    match options with
    | none => pure none
    | some options => do
      let body ← braceArgument line options.stop
      match body.filter (·.closed) with
      | none => pure none
      | some body => do
        let words ← clean body.content
        pure (some words)
  else pure none

/-- A styled passage is read from behind its options up to the brace that closes it. -/
theorem styledText_eq (line : Text) : styledText line = .ok (Line.styledText? line) := by
  unfold styledText Line.styledText?
  rw [startsWith_eq, ok_bind]
  cases ha : after? styleCommand line with
  | none => rfl
  | some rest =>
    have h := Rest.of_after? ha
    rw [Option.isSome_some, if_pos rfl, h.optionalArgument, ok_bind]
    cases hoptions : optionalArgument? rest with
    | none => simp [hoptions]
    | some options =>
      have hrest := h.found_option hoptions
      dsimp only [Option.map_some]
      rw [hrest.braceArgument, ok_bind, filter_closed]
      cases hbody : (braceArgument? options.rest).bind Argument.ifClosed with
      | none => simp [hoptions, hbody]
      | some body => simp [hoptions, hbody, Found.of]

/-! ## §4. Entries. -/

/-- What stands between a brace at an offset and the last closing brace, if it is not empty. -/
def widestGroup (line : Text) (i : Nat) : Checked (Option Text) :=
  if line.length ≤ i then pure none
  else do
    let b ← itemAt line i
    if b = openBrace then
      match findLast? closeBrace line with
      | none => pure none
      | some close =>
        if close ≤ i + 1 then pure none
        else do
          let behind ← difference close i
          let count ← difference behind 1
          let content ← slice line (i + 1) count
          pure (some content)
    else pure none

/-- The widest group reaches from the first brace to the last one, if they stand in that
order. -/
theorem Rest.widestGroup (h : Rest t i u) :
    widestGroup t i = .ok (Entry.widestGroup? u) := by
  unfold Offsets.widestGroup
  cases u with
  | nil => rw [if_pos (Nat.le_of_not_lt h.not_lt)]; rfl
  | cons b u =>
    rw [if_neg (Nat.not_le_of_lt h.lt), h.itemAt, ok_bind]
    show _ = Except.ok (if b = openBrace then (beforeLast? closeBrace u).filter (· ≠ []) else none)
    by_cases hb : b = openBrace
    · rw [if_pos hb, if_pos hb]
      rcases h.next.findLast? closeBrace with ⟨x, hx, hlast⟩ | ⟨hx, hlast⟩
      · obtain ⟨after, rfl⟩ := beforeLast?_eq_some hx
        rw [hx, hlast]
        dsimp only
        by_cases hnil : x = []
        · rw [if_pos (by simp [hnil]), hnil]
          rfl
        · have hpos := List.length_pos_iff.2 hnil
          have hcount : i + 1 + x.length - i = x.length + 1 := by omega
          rw [if_neg (by omega), difference_of_le (by omega), ok_bind, hcount,
            difference_of_le (by omega), ok_bind, Nat.add_sub_cancel, h.next.slice, ok_bind,
            Option.filter_some, if_pos (by simpa using hnil)]
          rfl
      · rw [hx]
        cases hclose : Offsets.findLast? closeBrace t with
        | none => rfl
        | some close =>
          have hlt := hlast close hclose
          dsimp only
          rw [if_pos (by omega)]
          rfl
    · rw [if_neg hb, if_neg hb]
      rfl

/-- The words of an entry, with a gloss inside it flattened. -/
def flatten (t : Text) : Checked Text :=
  match find? Entry.innerGloss t 0 with
  | none => pure t
  | some i => do
    let stop ← skipOption t (i + Entry.innerGloss.length)
    let body ← braceArgument t stop
    match body with
    | none => pure t
    | some found => do
      let before ← slice t 0 i
      let words ← trim before
      let gloss ← stripPunctuation found.content
      pure (words ++ gloss)

/-- A text is flattened at its first gloss: what stands in front is trimmed, and the words
of the gloss follow. -/
@[simp] theorem flatten_eq (t : Text) : flatten t = .ok (Entry.flatten t) := by
  have h := Rest.start t
  unfold flatten Entry.flatten
  rw [h.find?]
  cases hc : cut? Entry.innerGloss t with
  | none => rfl
  | some c =>
    have hrest := h.cut hc
    obtain ⟨stop, hstop, hbehind⟩ := hrest.append.append.skipOption
    dsimp only [Option.map_some]
    rw [hstop, ok_bind, hbehind.braceArgument, ok_bind]
    cases hbody : braceArgument? (Markup.skipOption c.after) with
    | none => rfl
    | some body =>
      dsimp only [Option.map_some]
      rw [Nat.zero_add, hrest.slice, ok_bind, trim_eq, ok_bind, stripPunctuation_eq]
      rfl

/-- The number of an entry's level and the offset behind it, of a line that starts with an
entry. -/
def entryLevel (line : Text) : Checked (Option (Nat × Nat)) := do
  let here ← startsWith line Entry.entryCommand
  if here then
    if line.length ≤ Entry.entryCommand.length then pure none
    else do
      let b ← itemAt line Entry.entryCommand.length
      if b = openBracket then
        let level ← optionalArgument line Entry.entryCommand.length
        match level.filter (·.closed) with
        | none => pure none
        | some found =>
          if isNumeral found.content then do
            let count ← readCount found.content
            pure (count.map fun n => (n, found.stop))
          else pure none
      else pure none
  else pure none

/-- The entry that a line makes, if it makes one. -/
def entry (line : Text) : Checked (Option Block) := do
  let level ← entryLevel line
  match level with
  | none => pure none
  | some (n, stop) => do
    let content ← widestGroup line stop
    match content with
    | none => pure none
    | some content => do
      let words ← clean content
      let flat ← flatten words
      pure (some (.entry n flat))

/-- An argument with the first byte of its text as its opener follows no whitespace. -/
theorem optionalArgument?_cons_openBracket (t : Text) :
    optionalArgument? (openBracket :: t) = brackets.argument? (openBracket :: t) := by
  unfold optionalArgument?
  rw [List.dropWhile_cons_of_neg (by decide)]

/-- The level of an entry is found by offsets exactly where there is one. -/
theorem entryLevel_cases (line : Text) :
    Entry.level? line = none ∧ entryLevel line = .ok none
      ∨ ∃ digits rest stop, Entry.level? line = some (digits, rest) ∧ Rest line stop rest
        ∧ entryLevel line = .ok ((count? digits).map fun n => (n, stop)) := by
  unfold Entry.level? entryLevel
  rw [startsWith_eq, ok_bind]
  cases ha : after? Entry.entryCommand line with
  | none => exact Or.inl ⟨rfl, rfl⟩
  | some arguments =>
    have h := Rest.of_after? ha
    rw [Option.isSome_some, if_pos rfl]
    cases arguments with
    | nil =>
      left
      rw [if_pos (Nat.le_of_not_lt h.not_lt)]
      exact ⟨rfl, rfl⟩
    | cons b arguments =>
      rw [if_neg (Nat.not_le_of_lt h.lt), h.itemAt, ok_bind]
      by_cases hb : b = openBracket
      · have hoption := h.optionalArgument
        rw [hb] at h hoption ⊢
        rw [if_pos rfl, hoption, ok_bind, optionalArgument?_cons_openBracket]
        rw [filter_closed]
        simp only [Option.bind_eq_bind, Option.bind_some]
        cases hclosed : (brackets.argument? (openBracket :: arguments)).bind Argument.ifClosed with
        | none => exact Or.inl ⟨rfl, rfl⟩
        | some a =>
          by_cases hdigits : isNumeral a.content = true
          · right
            refine ⟨a.content, a.rest, _, ?_, h.found_closed hclosed, ?_⟩
            · simp [hdigits]
            · simp [Found.of, hdigits, readCount_eq hdigits]
          · left
            constructor
            · simp [hdigits]
            · simp [Found.of, hdigits]
      · left
        rw [if_neg hb]
        refine ⟨?_, rfl⟩
        have hnone : brackets.argument? (b :: arguments) = none := by
          show (if b = brackets.opener then some (brackets.argument arguments) else none) = _
          exact if_neg hb
        simp [hnone]

/-- An entry has its level from the options in front of its group, if they are a numeral. -/
theorem entry_eq (line : Text) : entry line = .ok (Entry.ofLine? line).value := by
  unfold entry Entry.ofLine?
  rcases entryLevel_cases line with ⟨hlevel, hnone⟩ | ⟨digits, rest, stop, hlevel, hrest, hsome⟩
  · rw [hlevel, hnone]
    rfl
  · rw [hlevel, hsome, ok_bind]
    dsimp only
    cases count? digits with
    | none => rfl
    | some n =>
      dsimp only [Option.map_some]
      rw [hrest.widestGroup, ok_bind]
      cases Entry.widestGroup? rest with
      | none => rfl
      | some content =>
        dsimp only [Option.map_some]
        rw [clean_eq, ok_bind, flatten_eq]
        rfl

end FolioGrid.Offsets
