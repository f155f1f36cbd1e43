/-
  FolioGrid.Proofs.Offsets.Markup
  ────────────────────────────────
  **NAMES, OPTIONS AND STYLES BY OFFSETS.**

  The name of a command ends at an offset; a list of options is cut at its commas;
  and a style wrapper is replaced in the text itself, in which the search goes on
  from the same offset.
-/
import FolioGrid.Proofs.Markup.Options
import FolioGrid.Proofs.Offsets.Argument
import FolioGrid.Proofs.Offsets.Blank

namespace FolioGrid.Offsets

open FolioGrid.Text FolioGrid.Markup

variable {t u : Text} {i : Nat}

/-! ## §1. Names of commands. -/

/-- The offset at which a command's name ends. -/
def nameEnd (line : Text) (i : Nat) : Checked Nat :=
  if _h : i < line.length then do
    let b ← itemAt line i
    if b = openBracket ∨ b = openBrace then pure i
    else
      let blank ← blankLength line i
      if 0 < blank then pure i else nameEnd line (i + 1)
  else pure i
termination_by line.length - i

/-- The name of the command with which a line starts; empty if it starts with none. -/
def commandName (line : Text) : Checked Text :=
  if line = [] then pure []
  else do
    let b ← itemAt line 0
    if b = backslash then
      let stop ← nameEnd line 1
      let count ← difference stop 1
      slice line 1 count
    else pure []

/-- The name of a command is the head of what stands behind its sign. -/
theorem nameRun_prefix (t : Text) : nameRun t <+: t := by
  induction t with
  | nil => exact List.nil_prefix
  | cons b t ih =>
    unfold nameRun
    split
    · exact List.nil_prefix
    · exact List.cons_prefix_cons.2 ⟨rfl, ih⟩

/-- It ends where the text does, or in front of a bracket, a brace or a blank. -/
theorem Rest.nameEnd (h : Rest t i u) : nameEnd t i = .ok (i + (nameRun u).length) := by
  induction u generalizing i with
  | nil => rw [Offsets.nameEnd, dif_neg h.not_lt]; rfl
  | cons b u ih =>
    rw [Offsets.nameEnd, dif_pos h.lt, h.itemAt, ok_bind]
    unfold nameRun
    by_cases hb : b = openBracket ∨ b = openBrace
    · rw [if_pos hb, if_pos (by rcases hb with rfl | rfl <;> rfl)]
      rfl
    · rw [if_neg hb, h.blankLength, ok_bind]
      rw [not_or] at hb
      by_cases hblank : 0 < headBlank (b :: u)
      · rw [if_pos hblank, if_pos (by simp [startsBlank_eq, hblank])]
        rfl
      · rw [if_neg hblank, if_neg (by simp [startsBlank_eq, hblank, hb.1, hb.2]), ih h.next,
          List.length_cons, Nat.add_assoc, Nat.add_comm 1]

/-- So a line has a name only behind a sign that it begins with. -/
@[simp] theorem commandName_eq (line : Text) :
    commandName line = .ok (Markup.commandName line) := by
  unfold commandName
  cases line with
  | nil => rfl
  | cons b line =>
    have h := Rest.start (b :: line)
    rw [if_neg (List.cons_ne_nil b line), h.itemAt, ok_bind]
    show _ = Except.ok (if b = backslash then nameRun line else [])
    by_cases hb : b = backslash
    · obtain ⟨rest, hrest⟩ := nameRun_prefix line
      have hname : Rest (b :: line) 1 (nameRun line ++ rest) := by
        rw [hrest]
        exact h.next
      rw [if_pos hb, if_pos hb, h.next.nameEnd, ok_bind, difference_add, ok_bind]
      exact hname.slice
    · rw [if_neg hb, if_neg hb]
      rfl

/-! ## §2. Options. -/

/-- An option's key and value, of an option without blanks at its ends. -/
def optionEntry (item : Text) : Checked (Text × Text) :=
  match find? [equalsSign] item 0 with
  | none => pure (item, [])
  | some i => do
    let before ← slice item 0 i
    let key ← trim before
    let behind ← sliceFrom item (i + 1)
    let value ← trim behind
    pure (key, value)

/-- The option that an item is, if it is not empty. -/
def itemEntries (item : Text) : Checked (List (Text × Text)) :=
  if item = [] then pure []
  else do
    let entry ← optionEntry item
    pure [entry]

/-- The options of a list, in order. -/
def optionEntries (t : Text) : Checked (List (Text × Text)) := go 0
where
  /-- The options from an offset on. -/
  go (start : Nat) : Checked (List (Text × Text)) :=
    if _h : start ≤ t.length then do
      let stop := (find? [comma] t start).getD t.length
      let count ← difference stop start
      let part ← slice t start count
      let item ← trim part
      let entries ← itemEntries item
      if _hstop : t.length + 1 - (stop + 1) < t.length + 1 - start then
        let rest ← go (stop + 1)
        pure (entries ++ rest)
      else .error .stuck
    else pure []
  termination_by t.length + 1 - start

/-- The table of an option list. -/
def optionTable (t : Text) : Checked Table := do
  let entries ← optionEntries t
  pure (Table.ofList entries)

/-- An option is cut at its first equals sign, if it has one. -/
theorem optionEntry_eq (t : Text) :
    optionEntry (Text.trim t) = .ok (Markup.optionEntry (Text.trim t)) := by
  have h := Rest.start (Text.trim t)
  unfold optionEntry
  rw [h.find?]
  cases hc : cut? [equalsSign] (Text.trim t) with
  | none =>
    -- all of it is the key
    have hkey : ∀ b ∈ Text.trim t, (b != ascii '=') = true := by
      rw [cut?_singleton_eq_none_iff] at hc
      intro b hb
      rw [bne_iff_ne]
      rintro rfl
      exact hc hb
    have hspan : (Text.trim t).span (· != ascii '=') = (Text.trim t, []) := by
      rw [List.span_eq_takeWhile_dropWhile, List.takeWhile_eq_self_iff.2 hkey,
        List.dropWhile_eq_nil_iff.2 hkey]
    unfold Markup.optionEntry
    rw [hspan]
    dsimp only
    rw [trim_trim]
    rfl
  | some c =>
    obtain ⟨ht, hfree⟩ := of_cut?_singleton hc
    rw [ht, optionEntry_append hfree]
    rw [ht] at h
    have hbefore := h.slice
    have hbehind := h.append.next.sliceFrom
    simp only [Option.map_some, Nat.zero_add] at hbefore hbehind ⊢
    rw [hbefore, ok_bind, trim_eq, ok_bind, hbehind, ok_bind, trim_eq]
    rfl

/-- An item that is blank gives no option, and any other gives one. -/
theorem itemEntries_eq (item : Text) :
    itemEntries (Text.trim item)
      = .ok ((([item].map Text.trim).filter (· ≠ [])).map Markup.optionEntry) := by
  unfold itemEntries
  by_cases hitem : Text.trim item = []
  · simp [hitem]
  · simp [hitem, optionEntry_eq]

/-- What stands up to a comma is read before what stands behind it. -/
theorem Rest.optionEntries_go {t u : Text} {i : Nat} (h : Rest t i u) :
    optionEntries.go t i
      = .ok ((((pieces comma u).map Text.trim).filter (· ≠ [])).map Markup.optionEntry) := by
  have hlength := h.length_eq
  rw [optionEntries.go, dif_pos h.le]
  cases hc : cut? [comma] u with
  | none =>
    have hstop : (Offsets.find? [comma] t i).getD t.length = t.length := by
      rw [h.find?, hc]
      rfl
    have hend : optionEntries.go t (t.length + 1) = .ok [] := by
      rw [optionEntries.go, dif_neg (by omega)]
      rfl
    rw [hstop]
    dsimp only
    rw [difference_of_le h.le, ok_bind, h.slice_take, ok_bind,
      List.take_of_length_le (by omega), trim_eq, ok_bind, itemEntries_eq, ok_bind,
      dif_pos (by omega), hend, pieces_of_not_mem (cut?_singleton_eq_none_iff.1 hc)]
    simp
  | some c =>
    have hstop : (Offsets.find? [comma] t i).getD t.length = i + c.before.length := by
      rw [h.find?, hc]
      rfl
    obtain ⟨hu, hfree⟩ := of_cut?_singleton hc
    rw [hstop]
    rw [hu] at h hlength ⊢
    rw [List.length_append, List.length_cons] at hlength
    dsimp only
    rw [difference_add, ok_bind, h.slice, ok_bind, trim_eq, ok_bind, itemEntries_eq, ok_bind,
      dif_pos (by omega), h.append.next.optionEntries_go, pieces_append_cons,
      pieces_of_not_mem hfree, List.map_append, List.filter_append, List.map_append]
    rfl
termination_by u.length
decreasing_by rw [hu, List.length_append, List.length_cons]; omega

/-- A list of options is cut at its commas from the left, by offsets that grow. -/
theorem optionTable_eq (t : Text) : optionTable t = .ok (Markup.optionTable t) := by
  unfold optionTable optionEntries
  rw [(Rest.start t).optionEntries_go]
  rfl

/-! ## §3. Styles. -/

/-- A text with each style wrapper replaced by its content. -/
def unwrapStyles (t : Text) : Checked Text := go t 0
where
  /-- A text in which the wrappers in front of an offset have been replaced. -/
  go (t : Text) (start : Nat) : Checked Text :=
    match find? styleCommand t start with
    | none => pure t
    | some i => do
      let stop ← skipOption t (i + styleCommand.length)
      let body ← braceArgument t stop
      match body with
      | none => if _h : t.length - stop < t.length - start then go t stop else .error .stuck
      | some found => do
        let before ← slice t 0 i
        let behind ← sliceFrom t found.stop
        let next := before ++ found.content ++ behind
        if _h : next.length - i < t.length - start then go next i else .error .stuck
  termination_by t.length - start
  decreasing_by all_goals exact _h

/-- The wrappers in front of the offset are gone, and none is looked for there again: the
search goes on in the text as it stands, and each time there is less of it. -/
theorem unwrapStyles_go (before u : Text) :
    unwrapStyles.go (before ++ u) before.length = .ok (before ++ Markup.unwrapStyles u) := by
  fun_induction Markup.unwrapStyles u generalizing before with
  | case1 u hnone =>
    rw [Offsets.unwrapStyles.go, (Rest.of_append before u).find?, hnone]
    rfl
  | case2 u c hc body hbody ih =>
    have hrest := Rest.of_append before u
    have h := hrest.cut hc
    have hu := hrest.eq h
    obtain ⟨stop, hstop, hbehind⟩ := h.append.append.skipOption
    have hfound := hbehind.braceArgument
    rw [hbody] at hfound
    have habove : slice (before ++ u) 0 (before.length + c.before.length)
        = .ok (before ++ c.before) := by
      have hstart := Rest.start (before ++ u)
      rw [hu, ← List.append_assoc] at hstart
      rw [← List.length_append, hu, ← List.append_assoc]
      exact hstart.slice
    have hlength := length_of_cut? hc
    have hskip := length_skipOption_le c.after
    have hlt := Delimiters.length_lt_of_argument? hbody
    rw [Offsets.unwrapStyles.go, hrest.find?, hc]
    simp only [Option.map_some]
    rw [hstop, ok_bind, hfound, ok_bind]
    simp only [Option.map_some]
    rw [habove, ok_bind, (hbehind.found hbody).sliceFrom, ok_bind, dif_pos]
    · simpa [Found.of, List.append_assoc] using ih (before ++ c.before)
    · show (before ++ c.before ++ body.content ++ body.rest).length
        - (before.length + c.before.length) < (before ++ u).length - before.length
      simp only [List.length_append]
      omega
  | case3 u c hc hnone ih =>
    have hrest := Rest.of_append before u
    have h := hrest.cut hc
    have hu := hrest.eq h
    obtain ⟨stop, hstop, hbehind⟩ := h.append.append.skipOption
    have hfound := hbehind.braceArgument
    rw [hnone] at hfound
    have hlength := length_of_cut? hc
    have hskip := length_skipOption_le c.after
    have hname : 0 < styleCommand.length := by decide
    have hstoplength := hbehind.length_eq
    rw [List.length_append] at hstoplength
    rw [Offsets.unwrapStyles.go, hrest.find?, hc]
    simp only [Option.map_some]
    rw [hstop, ok_bind, hfound, ok_bind]
    simp only [Option.map_none]
    rw [dif_pos (by rw [List.length_append]; omega)]
    -- the search goes on behind the options, and all in front of there stays
    have hafter := List.suffix_iff_eq_append.1 (skipOption_suffix c.after)
    have hnext := ih (before ++ c.before ++ styleCommand
      ++ c.after.take (c.after.length - (Markup.skipOption c.after).length))
    have htext : before ++ c.before ++ styleCommand
        ++ c.after.take (c.after.length - (Markup.skipOption c.after).length)
        ++ Markup.skipOption c.after = before ++ u := by
      simp only [List.append_assoc]
      rw [hafter, ← hu]
    have hstop' := congrArg List.length htext
    rw [List.length_append] at hstop'
    rw [htext, Nat.add_right_cancel (hstop'.trans hbehind.length_eq.symm)] at hnext
    simpa [List.append_assoc] using hnext

theorem unwrapStyles_eq (t : Text) : unwrapStyles t = .ok (Markup.unwrapStyles t) :=
  unwrapStyles_go [] t

end FolioGrid.Offsets
