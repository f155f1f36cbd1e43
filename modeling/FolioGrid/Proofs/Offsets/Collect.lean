/-
  FolioGrid.Proofs.Offsets.Collect
  ────────────────────────────────
  **ARGUMENTS OVER LINES, BY OFFSETS.**

  Lines are read at a cursor, and never where it has none.  While the lines of an
  argument are collected, the offset of its opening brace is looked for until it
  is found, and then kept: what is appended to a text moves nothing in it.
-/
import FolioGrid.Proofs.Markup.Argument
import FolioGrid.Proofs.Offsets.Argument
import FolioGrid.Proofs.Offsets.Blank
import FolioGrid.Reading.Collect

namespace FolioGrid.Offsets

open FolioGrid.Text FolioGrid.Markup

/-! ## §1. Cursors. -/

/-- The line under a cursor. -/
def current (c : Cursor) : Checked Text :=
  match c.rest with
  | [] => .error .noLine
  | line :: _ => .ok line

/-- A cursor that has passed some lines and met some commands that did not close. -/
def pass (c : Cursor) (lines unbalanced : Nat) : Cursor :=
  { c.advance lines with unbalanced := c.unbalanced + unbalanced }

/-- A line can be read where the cursor has one. -/
theorem current_of_cons {c : Cursor} {line : Text} {rest : List Text} (h : c.rest = line :: rest) :
    current c = .ok line := by
  unfold current
  rw [h]

/-- A cursor that has no lines is at its end. -/
theorem atEnd_of_nil {c : Cursor} (h : c.rest = []) : c.atEnd = true := by
  unfold Cursor.atEnd
  rw [h]
  rfl

/-- And one that has some is not. -/
theorem atEnd_of_cons {c : Cursor} {line : Text} {rest : List Text} (h : c.rest = line :: rest) :
    c.atEnd = false := by
  unfold Cursor.atEnd
  rw [h]
  rfl

theorem rest_advance (c : Cursor) (n : Nat) : (c.advance n).rest = c.rest.drop n := rfl

/-- To go one line on brings a cursor nearer to its end, unless it is there. -/
theorem length_rest_advance {c : Cursor} (h : ¬ c.atEnd = true) :
    (c.advance 1).rest.length < c.rest.length := by
  have hne : c.rest ≠ [] := fun hnil => h (atEnd_of_nil hnil)
  have hpos := List.length_pos_iff.2 hne
  rw [rest_advance, List.length_drop]
  omega

theorem advance_zero (c : Cursor) : c.advance 0 = c := by
  unfold Cursor.advance
  rw [Nat.zero_min, Nat.add_zero, List.drop_zero]

/-- Passing lines one after another is passing them. -/
theorem advance_advance (c : Cursor) (m n : Nat) : (c.advance m).advance n = c.advance (m + n) := by
  have hposition : c.position + min m c.rest.length + min n (c.rest.drop m).length
      = c.position + min (m + n) c.rest.length := by
    rw [List.length_drop]
    omega
  unfold Cursor.advance
  simp only [hposition, List.drop_drop]

theorem pass_zero (c : Cursor) (k : Nat) : pass c 0 k = { c with unbalanced := c.unbalanced + k } := by
  unfold pass
  rw [advance_zero]

/-- Lines that a cursor has gone on by and lines that it passes are passed together. -/
theorem pass_advance (c : Cursor) (m n k : Nat) : pass (c.advance m) n k = pass c (m + n) k := by
  unfold pass
  rw [advance_advance]
  rfl

/-! ## §2. The opening brace. -/

/-- The offset of the first opening brace behind the first occurrence of a command. -/
def braceOffset? (command t : Text) : Option Nat :=
  (find? command t 0).bind fun i => find? [openBrace] t (i + command.length)

section

variable {command t : Text}

/-- The opening brace of a command is the first one behind the command's name. -/
theorem braceOffset?_of_cut? {c : Cut} (h : cut? command t = some c) :
    braceOffset? command t
      = (cut? [openBrace] c.after).map fun b =>
        c.before.length + command.length + b.before.length := by
  have hstart := Rest.start t
  have hrest := hstart.cut h
  unfold braceOffset?
  rw [hstart.find?, h]
  show find? [openBrace] t (0 + c.before.length + command.length) = _
  rw [hrest.append.append.find?, Nat.zero_add]

/-- The argument of a command starts at that brace. -/
theorem argumentOf?_of_braceOffset? {i : Nat} (h : braceOffset? command t = some i) :
    ∃ u, Rest t i (openBrace :: u) ∧ argumentOf? command t = some (braces.argument u) := by
  cases hc : cut? command t with
  | none =>
    unfold braceOffset? at h
    rw [(Rest.start t).find?, hc] at h
    cases h
  | some c =>
    rw [braceOffset?_of_cut? hc] at h
    obtain ⟨b, hb, rfl⟩ := Option.map_eq_some_iff.1 h
    obtain ⟨hafter, hfree⟩ := of_cut?_singleton hb
    refine ⟨b.after, ?_, ?_⟩
    · have hrest := ((Rest.start t).cut hc).append.append
      rw [hafter, Nat.zero_add] at hrest
      exact hrest.append
    · show (cut? command t).bind _ = _
      rw [hc]
      show braceArgument? (c.after.dropWhile (· ≠ openBrace)) = _
      rw [hafter, (span_ne_append_cons hfree).2]
      rfl

/-- Without that brace there is no argument. -/
theorem argumentOf?_of_no_brace (h : braceOffset? command t = none) :
    argumentOf? command t = none := by
  show (cut? command t).bind _ = _
  cases hc : cut? command t with
  | none => rfl
  | some c =>
    rw [braceOffset?_of_cut? hc, Option.map_eq_none_iff, cut?_singleton_eq_none_iff] at h
    show braceArgument? (c.after.dropWhile (· ≠ openBrace)) = none
    rw [dropWhile_ne_eq_nil h]
    rfl

/-- A search that has found something finds the same in a longer text. -/
theorem cut?_append_of_some {pattern u : Text} {c : Cut} (h : cut? pattern t = some c) :
    cut? pattern (t ++ u) = some { c with after := c.after ++ u } := by
  by_cases hp : pattern = []
  · -- the empty pattern stands at the head of any text
    subst hp
    cases (cut?_append [] t).symm.trans h
    exact cut?_append [] (t ++ u)
  · obtain ⟨ht, hfound, hfirst⟩ := (cut?_eq_some_iff hp).1 h
    refine (cut?_eq_some_iff hp).2 ⟨?_, hfound, hfirst⟩
    rw [ht, List.append_assoc]

/-- **A brace once found stays where it is**, whatever is appended. -/
theorem braceOffset?_append {i : Nat} (h : braceOffset? command t = some i) (u : Text) :
    braceOffset? command (t ++ u) = some i := by
  cases hc : cut? command t with
  | none =>
    unfold braceOffset? at h
    rw [(Rest.start t).find?, hc] at h
    cases h
  | some c =>
    rw [braceOffset?_of_cut? hc] at h
    obtain ⟨b, hb, rfl⟩ := Option.map_eq_some_iff.1 h
    rw [braceOffset?_of_cut? (cut?_append_of_some hc), cut?_append_of_some hb]
    rfl

/-- No command opens its argument in an empty text. -/
theorem braceOffset?_nil (command : Text) : braceOffset? command [] = none := by
  cases hc : cut? command [] with
  | none =>
    unfold braceOffset?
    rw [(Rest.start []).find?, hc]
    rfl
  | some c =>
    have hlength := length_of_cut? hc
    rw [List.length_nil] at hlength
    have hafter : c.after = [] := List.eq_nil_of_length_eq_zero (by omega)
    rw [braceOffset?_of_cut? hc, hafter]
    rfl

end

/-! ## §3. Collecting. -/

/-- A text without the closing braces at its end. -/
def dropClosers (t : Text) : Checked Text :=
  if t = [] then pure t
  else do
    let last ← lastOf t
    if last = closeBrace then do
      let rest ← popLast t
      if _h : rest.length < t.length then dropClosers rest else .error .stuck
    else pure t
termination_by t.length

/-- Closing braces are taken from the end as long as there are some. -/
theorem dropClosers_eq (t : Text) :
    dropClosers t = .ok (t.reverse.dropWhile (· = closeBrace)).reverse := by
  induction t using List.reverseRecOn with
  | nil => rw [dropClosers]; rfl
  | append_singleton t b ih =>
    rw [dropClosers, if_neg (by simp), lastOf_concat, ok_bind, List.reverse_append,
      List.reverse_singleton, List.singleton_append]
    by_cases hb : b = closeBrace
    · rw [if_pos hb, popLast_concat, ok_bind, dif_pos (by simp), ih,
        List.dropWhile_cons_of_pos (by simpa using hb)]
    · rw [if_neg hb, List.dropWhile_cons_of_neg (by simpa using hb)]
      simp

/-- What is kept of an argument that does not close. -/
def salvage (t : Text) (brace : Option Nat) : Checked Text :=
  match brace with
  | none => pure []
  | some i => do
    let behind ← sliceFrom t (i + 1)
    let kept ← dropClosers behind
    pure (oneLine kept)

/-- A text with one more line. -/
def addLine (text : Text) (taken : Nat) (line : Text) : Text :=
  (if 0 < taken then text ++ [lineFeed] else text) ++ line

/-- Where the brace stands, which is looked for only until it is found. -/
def findBrace (command text : Text) : Option Nat → Option Nat
  | some i => some i
  | none => braceOffset? command text

/-- The argument that starts at a brace, in one line, if it closes. -/
def closedContent (text : Text) : Option Nat → Checked (Option Text)
  | none => pure none
  | some i => do
    let argument ← braceArgument text i
    pure ((argument.filter (·.closed)).map fun found => oneLine found.content)

/-- Take lines at a cursor until the argument of a command closes. -/
def collect (command : Text) (c : Cursor) : Checked (Collected × Cursor) := go c [] 0 none
where
  /-- Take more lines, where some have been taken and the brace has been found or not. -/
  go (c : Cursor) (text : Text) (taken : Nat) (brace : Option Nat) : Checked (Collected × Cursor) :=
    if _h : c.atEnd then do
      let content ← salvage text brace
      pure (⟨text, content, taken, false⟩, c.noteUnbalanced)
    else do
      let line ← current c
      let words ← trim line
      let text := addLine text taken words
      let brace := findBrace command text brace
      let content ← closedContent text brace
      match content with
      | some content => pure (⟨text, content, taken + 1, true⟩, c.advance 1)
      | none => go (c.advance 1) text (taken + 1) brace
  termination_by c.rest.length
  decreasing_by exact length_rest_advance _h

section

variable {command t : Text} {brace : Option Nat}

/-- What is salvaged of an argument begins behind the brace that is remembered; without one
there is nothing to salvage. -/
theorem salvage_eq (hbrace : brace = braceOffset? command t)
    (hopen : (argumentOf? command t).bind Argument.ifClosed = none) :
    salvage t brace = .ok (FolioGrid.salvage command t) := by
  rw [hbrace]
  unfold salvage FolioGrid.salvage
  cases hi : braceOffset? command t with
  | none => rw [argumentOf?_of_no_brace hi]; rfl
  | some i =>
    obtain ⟨u, hrest, hargument⟩ := argumentOf?_of_braceOffset? hi
    -- what does not close takes all that is left
    have hall : braces.argument u = ⟨u, [], false⟩ := by
      rw [hargument, Option.bind_some, Delimiters.ifClosed_argument_eq_none_iff] at hopen
      unfold Delimiters.argument
      rw [hopen]
    rw [hargument, hall]
    dsimp only
    rw [hrest.next.sliceFrom, ok_bind, dropClosers_eq]
    rfl

/-- An argument that closes is read from the brace that is remembered. -/
theorem closedContent_eq (hbrace : brace = braceOffset? command t) :
    closedContent t brace
      = .ok (((argumentOf? command t).bind Argument.ifClosed).map fun a => oneLine a.content) := by
  rw [hbrace]
  unfold closedContent
  cases hi : braceOffset? command t with
  | none => rw [argumentOf?_of_no_brace hi]; rfl
  | some i =>
    obtain ⟨u, hrest, hargument⟩ := argumentOf?_of_braceOffset? hi
    have hat : braceArgument? (openBrace :: u) = some (braces.argument u) := by
      show (if openBrace = braces.opener then some (braces.argument u) else none) = _
      exact if_pos rfl
    rw [hargument]
    dsimp only
    rw [hrest.braceArgument, hat, ok_bind, filter_closed, Option.map_map]
    rfl

/-- To look for the brace only until it has been found gives what looking for it anew in
each line would give. -/
theorem findBrace_eq (hbrace : brace = braceOffset? command t) (taken : Nat) (line : Text) :
    findBrace command (addLine t taken line) brace = braceOffset? command (addLine t taken line) := by
  cases hi : brace with
  | none => rfl
  | some i =>
    have hlonger : ∃ u, addLine t taken line = t ++ u := by
      unfold addLine
      split
      · exact ⟨[lineFeed] ++ line, List.append_assoc t _ _⟩
      · exact ⟨line, rfl⟩
    obtain ⟨u, hu⟩ := hlonger
    rw [hu, braceOffset?_append (hbrace ▸ hi)]
    rfl

/-- Collecting goes on in the same way from wherever it has come to. -/
theorem collect_go {c : Cursor} (taken : Nat) (hbrace : brace = braceOffset? command t)
    (hopen : (argumentOf? command t).bind Argument.ifClosed = none) :
    ∃ r n, r.lines = taken + n ∧ collect.go command c t taken brace = .ok (r, pass c n r.unbalanced)
      ∧ r = match c.rest with
        | [] => ⟨t, FolioGrid.salvage command t, taken, false⟩
        | line :: rest =>
          FolioGrid.collect.go command (addLine t taken (Text.trim line)) (taken + 1) rest := by
  induction hrest : c.rest generalizing c t taken brace with
  | nil =>
    refine ⟨_, 0, rfl, ?_, rfl⟩
    rw [collect.go, dif_pos (atEnd_of_nil hrest), salvage_eq hbrace hopen, pass_zero]
    rfl
  | cons line rest ih =>
    have hnext : (c.advance 1).rest = rest := by rw [rest_advance, hrest]; rfl
    have hbrace' := findBrace_eq hbrace taken (Text.trim line)
    rw [collect.go, dif_neg (by rw [atEnd_of_cons hrest]; decide), current_of_cons hrest, ok_bind,
      trim_eq, ok_bind]
    dsimp only
    rw [closedContent_eq hbrace', ok_bind]
    generalize addLine t taken (Text.trim line) = text at hbrace' ⊢
    unfold FolioGrid.collect.go
    cases hclosed : (argumentOf? command text).bind Argument.ifClosed with
    | some a =>
      exact ⟨_, 1, rfl, rfl, rfl⟩
    | none =>
      obtain ⟨r, n, hlines, hgo, hr⟩ := ih (taken + 1) hbrace' hclosed hnext
      refine ⟨r, 1 + n, by rw [hlines, Nat.add_assoc], ?_, ?_⟩
      · dsimp only [Option.map_none]
        rw [hgo, pass_advance]
      · rw [hr]
        cases rest with
        | nil => rfl
        | cons next rest =>
          have hadd : addLine text (taken + 1) (Text.trim next)
              = text ++ lineFeed :: Text.trim next := by
            unfold addLine
            rw [if_pos (Nat.succ_pos taken), List.append_assoc, List.singleton_append]
          dsimp only
          rw [hadd]

/-- **Collecting at a cursor is collecting its lines.** -/
theorem collect_eq (command : Text) (c : Cursor) :
    collect command c = .ok (c.collect command) := by
  have hbrace : none = braceOffset? command [] := (braceOffset?_nil command).symm
  have hopen : (argumentOf? command []).bind Argument.ifClosed = none := by
    rw [argumentOf?_of_no_brace hbrace.symm]
    rfl
  obtain ⟨r, n, hlines, hgo, hr⟩ := collect_go (c := c) 0 hbrace hopen
  have hcollect : r = FolioGrid.collect command c.rest := by
    rw [hr]
    cases c.rest with
    | nil => rfl
    | cons line rest => rfl
  unfold collect Cursor.collect
  rw [hgo, ← hcollect]
  show Except.ok (r, pass c n r.unbalanced) = .ok (r, pass c r.lines r.unbalanced)
  rw [hlines, Nat.zero_add]

end

end FolioGrid.Offsets
