/-
  FolioGrid.Proofs.Reading.Collecting
  ────────────────────────────────
  **COLLECTING IS ONE SCAN.**

  The lines of an argument are taken one by one, and after each of them all that
  has been taken is looked at again.  What comes of it is what a single scan of
  all lines would have found, and no line is taken that this scan would not have
  needed:

      OpensAt            — where a command opens its argument, said without a search
      Collects           — what collecting gives, in one case for each of its ends
      Cursor.collect_scan — the same at a cursor, beside the scan

  All of it rests on one thing: what is added behind a text changes neither the
  place at which an argument opens nor the one at which it closes
  (`closedArgument?_append`).
-/
import FolioGrid.Proofs.Markup.Balance
import FolioGrid.Proofs.Offsets.Collect
import FolioGrid.Proofs.Text.Lines
import Mathlib.Order.Bounds.Defs

namespace FolioGrid

open FolioGrid.Text FolioGrid.Markup

/-! ## §1. Where an argument opens. -/

variable {command t u : Text} {a : Argument} {b b' : Nat}

/-- The place at which a command opens its argument: that of the first opening
brace at or behind the end of the command's first occurrence. -/
inductive OpensAt (command t : Text) (b : Nat) : Prop where
  /-- The command stands first at `p`. -/
  | mk {p : Nat} (hcommand : FirstAt command t p) (hbehind : p + command.length ≤ b)
      (hbrace : t[b]? = some openBrace)
      (hfirst : ∀ j, p + command.length ≤ j → j < b → t[j]? ≠ some openBrace)

/-- A command opens its argument at one place only. -/
theorem OpensAt.eq (h : OpensAt command t b) (h' : OpensAt command t b') : b = b' := by
  obtain ⟨hcommand, hbehind, hbrace, hfirst⟩ := h
  obtain ⟨hcommand', hbehind', hbrace', hfirst'⟩ := h'
  rw [hcommand.eq hcommand'] at hbehind hfirst
  rcases Nat.lt_trichotomy b b' with hlt | heq | hlt
  · exact absurd hbrace (hfirst' b hbehind hlt)
  · exact heq
  · exact absurd hbrace' (hfirst b' hbehind' hlt)

/-- There stands a brace, so the text goes on. -/
theorem OpensAt.lt (h : OpensAt command t b) : b < t.length := by
  obtain ⟨-, -, hbrace, -⟩ := h
  exact (List.getElem?_eq_some_iff.1 hbrace).1

/-- A search ends at the first position, also that for the empty pattern. -/
theorem firstAt_of_cut?_eq_some {c : Cut} (h : cut? command t = some c) :
    FirstAt command t c.before.length := by
  by_cases hcommand : command = []
  · subst hcommand
    cases (cut?_append [] t).symm.trans h
    exact ⟨List.nil_prefix, fun j hj => absurd hj (Nat.not_lt_zero j)⟩
  · exact firstAt_of_cut? hcommand h

/-- The search for the opening brace finds the place. -/
theorem braceOffset?_eq_some_iff :
    Offsets.braceOffset? command t = some b ↔ OpensAt command t b := by
  have sound : ∀ {i}, Offsets.braceOffset? command t = some i → OpensAt command t i := by
    intro i hi
    cases hc : cut? command t with
    | none =>
      unfold Offsets.braceOffset? at hi
      rw [(Offsets.Rest.start t).find?, hc] at hi
      cases hi
    | some c =>
      rw [Offsets.braceOffset?_of_cut? hc] at hi
      obtain ⟨k, hk, rfl⟩ := Option.map_eq_some_iff.1 hi
      obtain ⟨hafter, hfree⟩ := Offsets.of_cut?_singleton hk
      have ht := append_of_cutAny? hc
      rw [found_of_cut? hc, hafter] at ht
      have hlength : (c.before ++ command).length = c.before.length + command.length :=
        List.length_append
      refine ⟨firstAt_of_cut?_eq_some hc, Nat.le_add_right _ _, ?_, ?_⟩
      · rw [← ht, ← hlength, List.getElem?_append_right (Nat.le_add_right _ _),
          Nat.add_sub_cancel_left, List.getElem?_append_right (Nat.le_refl _), Nat.sub_self]
        rfl
      · intro j hle hlt hbrace
        -- the byte would stand in front of the brace
        rw [← hlength] at hle hlt
        rw [← ht, List.getElem?_append_right hle, List.getElem?_append_left (by omega)] at hbrace
        exact hfree (List.mem_of_getElem? hbrace)
  constructor
  · exact sound
  · intro h
    cases hi : Offsets.braceOffset? command t with
    | some i => rw [(sound hi).eq h]
    | none =>
      obtain ⟨hcommand, hbehind, hbrace, -⟩ := h
      cases hc : cut? command t with
      | none => exact absurd hcommand.isInfix (cut?_eq_none_iff.1 hc)
      | some c =>
        rw [Offsets.braceOffset?_of_cut? hc, Option.map_eq_none_iff,
          Offsets.cut?_singleton_eq_none_iff] at hi
        have ht := append_of_cutAny? hc
        rw [found_of_cut? hc] at ht
        rw [← (firstAt_of_cut?_eq_some hc).eq hcommand, ← List.length_append] at hbehind
        rw [← ht, List.getElem?_append_right hbehind] at hbrace
        exact absurd (List.mem_of_getElem? hbrace) hi

/-- A command's argument is the one that starts at that place. -/
theorem argumentOf?_eq_some_iff :
    argumentOf? command t = some a
      ↔ ∃ b, OpensAt command t b ∧ braceArgument? (t.drop b) = some a := by
  have there : ∀ {i}, OpensAt command t i →
      argumentOf? command t = braceArgument? (t.drop i) := by
    intro i hi
    obtain ⟨u, hrest, hargument⟩ :=
      Offsets.argumentOf?_of_braceOffset? (braceOffset?_eq_some_iff.2 hi)
    rw [hargument, hrest.drop_eq]
    exact (braceArgument?_openBrace u).symm
  constructor
  · intro h
    cases hi : Offsets.braceOffset? command t with
    | none =>
      rw [Offsets.argumentOf?_of_no_brace hi] at h
      cases h
    | some i =>
      have hopens := braceOffset?_eq_some_iff.1 hi
      exact ⟨i, hopens, there hopens ▸ h⟩
  · rintro ⟨i, hopens, h⟩
    rw [there hopens, h]

/-- At the head of a text a command is found at once. -/
theorem argumentOf?_append (command t : Text) :
    argumentOf? command (command ++ t) = braceArgument? (t.dropWhile (· ≠ openBrace)) := by
  unfold argumentOf?
  rw [cut?_append]
  rfl

/-- **The place stays where it is**, whatever is appended. -/
theorem OpensAt.append (h : OpensAt command t b) (u : Text) : OpensAt command (t ++ u) b :=
  braceOffset?_eq_some_iff.1 (Offsets.braceOffset?_append (braceOffset?_eq_some_iff.2 h) u)

/-- A place inside a beginning of a text is one of the beginning. -/
theorem OpensAt.of_append (h : OpensAt command (t ++ u) b) (hb : b < t.length) :
    OpensAt command t b := by
  obtain ⟨⟨hhere, hnowhere⟩, hbehind, hbrace, hfirst⟩ := h
  have hdrop : ∀ {j}, j ≤ b → (t ++ u).drop j = t.drop j ++ u :=
    fun hj => List.drop_append_of_le_length (by omega)
  refine ⟨⟨?_, ?_⟩, hbehind, ?_, ?_⟩
  · -- the command ends in front of the brace
    rw [hdrop (by omega)] at hhere
    refine List.prefix_of_prefix_length_le hhere (List.prefix_append _ u) ?_
    rw [List.length_drop]
    omega
  · intro j hj hstands
    refine hnowhere j hj ?_
    rw [hdrop (by omega)]
    exact hstands.trans (List.prefix_append _ u)
  · rwa [List.getElem?_append_left hb] at hbrace
  · intro j hle hlt
    have hj := hfirst j hle hlt
    rwa [List.getElem?_append_left (by omega)] at hj

/-! ## §2. Where it closes. -/

/-- The argument of a command, if it closes. -/
def closedArgument? (command t : Text) : Option Argument :=
  (argumentOf? command t).bind Argument.ifClosed

/-- A closed argument is one that closes from that place on. -/
theorem closedArgument?_eq_some_iff :
    closedArgument? command t = some a
      ↔ ∃ b, OpensAt command t b ∧ (braceArgument? (t.drop b)).bind Argument.ifClosed = some a := by
  unfold closedArgument?
  simp only [Option.bind_eq_some_iff, argumentOf?_eq_some_iff]
  constructor
  · rintro ⟨a', ⟨b, hopens, ha'⟩, hclosed⟩
    exact ⟨b, hopens, a', ha', hclosed⟩
  · rintro ⟨b, hopens, a', ha', hclosed⟩
    exact ⟨a', ⟨b, hopens, ha'⟩, hclosed⟩

/-- Nothing opens in an empty text. -/
theorem closedArgument?_nil (command : Text) : closedArgument? command [] = none := by
  unfold closedArgument?
  rw [Offsets.argumentOf?_of_no_brace (Offsets.braceOffset?_nil command)]
  rfl

/-- **What stands behind a text does not change the argument that closes in it.** -/
theorem closedArgument?_append (h : closedArgument? command t = some a) (u : Text) :
    closedArgument? command (t ++ u) = some { a with rest := a.rest ++ u } := by
  obtain ⟨b, hopens, ha⟩ := closedArgument?_eq_some_iff.1 h
  refine closedArgument?_eq_some_iff.2 ⟨b, hopens.append u, ?_⟩
  rw [List.drop_append_of_le_length (Nat.le_of_lt hopens.lt)]
  exact Delimiters.ifClosed_argument?_append_of_some ha u

/-- **An argument that closes only in what is added ends there.** -/
theorem length_rest_lt_of_closedArgument? (hopen : closedArgument? command t = none)
    (h : closedArgument? command (t ++ u) = some a) : a.rest.length < u.length := by
  obtain ⟨b, hopens, ha⟩ := closedArgument?_eq_some_iff.1 h
  by_cases hb : b < t.length
  · -- it opens in the text itself, and is still open at its end
    have hinside := hopens.of_append hb
    have hstill : (braceArgument? (t.drop b)).bind Argument.ifClosed = none := by
      rw [Option.eq_none_iff_forall_ne_some]
      intro a' ha'
      rw [closedArgument?_eq_some_iff.2 ⟨b, hinside, ha'⟩] at hopen
      cases hopen
    rw [List.drop_append_of_le_length (Nat.le_of_lt hb)] at ha
    exact Delimiters.length_rest_lt_of_append hstill ha
  · rw [List.drop_append, List.drop_eq_nil_of_le (Nat.le_of_not_lt hb), List.nil_append] at ha
    have hlt := Delimiters.length_rest_lt_of_append (t := []) rfl
      ((List.nil_append (u.drop (b - t.length))).symm ▸ ha)
    rw [List.length_drop] at hlt
    omega

/-- Behind the argument stands its closing brace, and then what is left. -/
theorem exists_append_closeBrace (h : closedArgument? command t = some a) :
    ∃ x, t = x ++ closeBrace :: a.rest := by
  obtain ⟨b, -, ha⟩ := closedArgument?_eq_some_iff.1 h
  obtain ⟨a', ha', hclosed⟩ := Option.bind_eq_some_iff.1 ha
  obtain rfl := Argument.eq_of_ifClosed hclosed
  rcases Delimiters.eq_of_argument? ha' with ⟨heq, -⟩ | ⟨-, -, hopen⟩
  · refine ⟨t.take b ++ openBrace :: a.content, ?_⟩
    conv => lhs; rw [← List.take_append_drop b t, heq]
    rw [List.append_assoc]
    rfl
  · rw [Argument.closed_of_ifClosed hclosed] at hopen
    cases hopen

/-- What holds no closing brace does not close an argument. -/
theorem closedArgument?_append_eq_none (hu : closeBrace ∉ u)
    (hopen : closedArgument? command t = none) : closedArgument? command (t ++ u) = none := by
  rw [Option.eq_none_iff_forall_ne_some]
  intro a h
  have hlt := length_rest_lt_of_closedArgument? hopen h
  obtain ⟨x, hx⟩ := exists_append_closeBrace h
  have hsuffix : closeBrace :: a.rest <:+ u :=
    List.suffix_of_suffix_length_le ⟨x, hx.symm⟩ (List.suffix_append t u) hlt
  exact hu (hsuffix.subset List.mem_cons_self)

/-! ## §3. Lines. -/

variable {ls A B : List Text}

/-- To write a text in one line is to write its parts in one line. -/
theorem oneLine_append (t u : Text) : oneLine (t ++ u) = oneLine t ++ oneLine u :=
  List.filter_append t u

/-- A text in one line stays as it is. -/
theorem oneLine_eq_self (h : lineFeed ∉ t) : oneLine t = t := by
  unfold oneLine
  rw [List.filter_eq_self]
  intro b hb
  rw [decide_eq_true_eq]
  rintro rfl
  exact h hb

/-- Lines as they are put together: trimmed, one below the other. -/
def gathered (ls : List Text) : Text := joinLines (ls.map trim)

theorem gathered_nil : gathered [] = [] := rfl

theorem gathered_singleton (l : Text) : gathered [l] = trim l := by
  unfold gathered joinLines
  exact List.intercalate_singleton

/-- Lines gathered in two parts have a line feed between them. -/
theorem gathered_append (hA : A ≠ []) (hB : B ≠ []) :
    gathered (A ++ B) = gathered A ++ lineFeed :: gathered B := by
  unfold gathered
  rw [List.map_append, joinLines_append (by simpa using hA) (by simpa using hB)]

/-- The first lines are a beginning of all. -/
theorem gathered_take_prefix (j : Nat) (ls : List Text) : gathered (ls.take j) <+: gathered ls := by
  conv => rhs; rw [← List.take_append_drop j ls]
  by_cases hj : ls.take j = []
  · rw [hj]
    exact List.nil_prefix
  by_cases hrest : ls.drop j = []
  · rw [hrest, List.append_nil]
  · rw [gathered_append hj hrest]
    exact List.prefix_append _ _

/-- Lines without words add line feeds. -/
theorem gathered_append_blank {blank : List Text} (hA : A ≠ [])
    (hblank : ∀ l ∈ blank, trim l = []) :
    gathered (A ++ blank) = gathered A ++ List.replicate blank.length lineFeed := by
  induction blank generalizing A with
  | nil => rw [List.append_nil, List.length_nil, List.replicate_zero, List.append_nil]
  | cons l blank ih =>
    rw [List.forall_mem_cons] at hblank
    rw [List.append_cons, ih (by simp) hblank.2, gathered_append hA (List.cons_ne_nil l []),
      gathered_singleton, hblank.1, List.append_assoc, List.singleton_append, List.length_cons,
      List.replicate_succ]

/-- Blank lines add nothing but line feeds. -/
theorem exists_gathered_append_blank (A : List Text) {blank : List Text}
    (hblank : ∀ l ∈ blank, trim l = []) :
    ∃ u, (∀ b, b ≠ lineFeed → b ∉ u) ∧ gathered (A ++ blank) = gathered A ++ u := by
  have hfree : ∀ n, ∀ b, b ≠ lineFeed → b ∉ List.replicate n lineFeed :=
    fun n b hb hmem => hb (List.eq_of_mem_replicate hmem)
  by_cases hA : A = []
  · subst hA
    cases blank with
    | nil => exact ⟨[], fun b _ => List.not_mem_nil, rfl⟩
    | cons l blank =>
      rw [List.forall_mem_cons] at hblank
      refine ⟨_, hfree blank.length, ?_⟩
      show gathered ([l] ++ blank) = [] ++ _
      rw [gathered_append_blank (List.cons_ne_nil l []) hblank.2, gathered_singleton, hblank.1]
  · exact ⟨_, hfree _, gathered_append_blank hA hblank⟩

/-- Once the argument closes, no further line is looked at. -/
theorem collect_go_of_some (h : closedArgument? command t = some a) (taken : Nat)
    (ls : List Text) : collect.go command t taken ls = ⟨t, oneLine a.content, taken, true⟩ := by
  unfold closedArgument? at h
  unfold collect.go
  simp only [h]

/-- As long as it does not, the next line is added. -/
theorem collect_go_cons_of_none (h : closedArgument? command t = none) (taken : Nat) (next : Text)
    (ls : List Text) :
    collect.go command t taken (next :: ls)
      = collect.go command (t ++ lineFeed :: trim next) (taken + 1) ls := by
  unfold closedArgument? at h
  conv => lhs; unfold collect.go
  simp only [h]

/-- If no line is left, what there is is salvaged. -/
theorem collect_go_nil_of_none (h : closedArgument? command t = none) (taken : Nat) :
    collect.go command t taken [] = ⟨t, salvage command t, taken, false⟩ := by
  unfold closedArgument? at h
  unfold collect.go
  simp only [h]

/-- What is collected from lines, by the two ways in which that ends. -/
inductive Collects (command : Text) (ls : List Text) : Collected → Prop where
  /-- The argument closes in the first `k` lines, and in no fewer. -/
  | closed {k : Nat} {a : Argument} (hk : k ≤ ls.length)
      (hopen : ∀ j < k, closedArgument? command (gathered (ls.take j)) = none)
      (hclosed : closedArgument? command (gathered (ls.take k)) = some a) :
      Collects command ls ⟨gathered (ls.take k), oneLine a.content, k, true⟩
  /-- It does not close in any of them. -/
  | unclosed (hopen : ∀ j, closedArgument? command (gathered (ls.take j)) = none) :
      Collects command ls ⟨gathered ls, salvage command (gathered ls), ls.length, false⟩

/-- **From lines in which the argument is still open**, the scan goes on to the least number
that closes it, or to the end. -/
theorem collects_go (hA : A ≠ [])
    (hopen : ∀ j < A.length, closedArgument? command (gathered (A.take j)) = none) (B : List Text) :
    Collects command (A ++ B) (collect.go command (gathered A) A.length B) := by
  -- induction on the lines that are left; those taken so far have not closed the argument
  induction B generalizing A with
  | nil =>
    rw [List.append_nil]
    cases hall : closedArgument? command (gathered A) with
    | some a =>
      rw [collect_go_of_some hall]
      have htake : A.take A.length = A := List.take_length
      have hcollects := Collects.closed (Nat.le_refl _) hopen (htake.symm ▸ hall)
      rwa [htake] at hcollects
    | none =>
      rw [collect_go_nil_of_none hall]
      refine .unclosed fun j => ?_
      by_cases hj : j < A.length
      · exact hopen j hj
      · rwa [List.take_of_length_le (Nat.le_of_not_lt hj)]
  | cons next B ih =>
    cases hall : closedArgument? command (gathered A) with
    | some a =>
      rw [collect_go_of_some hall]
      have htake : (A ++ next :: B).take A.length = A := List.take_left
      have hfewer : ∀ j < A.length,
          closedArgument? command (gathered ((A ++ next :: B).take j)) = none := by
        intro j hj
        rw [List.take_append_of_le_length (Nat.le_of_lt hj)]
        exact hopen j hj
      have hcollects := Collects.closed (by simp) hfewer (htake.symm ▸ hall)
      rwa [htake] at hcollects
    | none =>
      have hnext : gathered A ++ lineFeed :: trim next = gathered (A ++ [next]) := by
        rw [gathered_append hA (List.cons_ne_nil next []), gathered_singleton]
      have hmore : ∀ j < (A ++ [next]).length,
          closedArgument? command (gathered ((A ++ [next]).take j)) = none := by
        intro j hj
        rw [List.length_append, List.length_singleton] at hj
        rw [List.take_append_of_le_length (by omega)]
        rcases Nat.lt_or_eq_of_le (Nat.le_of_lt_succ hj) with hlt | rfl
        · exact hopen j hlt
        · rwa [List.take_length]
      rw [collect_go_cons_of_none hall, hnext, List.append_cons]
      have hgo := ih (by simp) hmore
      rwa [List.length_append, List.length_singleton] at hgo

/-- **What collecting gives.** -/
theorem collects (command : Text) (ls : List Text) : Collects command ls (collect command ls) := by
  cases ls with
  | nil =>
    refine .unclosed fun j => ?_
    rw [List.take_nil]
    exact closedArgument?_nil command
  | cons first rest =>
    have hgo : Collects command ([first] ++ rest)
        (collect.go command (gathered [first]) 1 rest) := by
      refine collects_go (List.cons_ne_nil _ _) (fun j hj => ?_) rest
      obtain rfl : j = 0 := by simpa using hj
      exact closedArgument?_nil command
    rwa [gathered_singleton] at hgo

/-- There is one way to collect. -/
theorem Collects.eq {r r' : Collected} (h : Collects command ls r) (h' : Collects command ls r') :
    r = r' := by
  cases h with
  | unclosed hopen =>
    cases h' with
    | unclosed => rfl
    | @closed k a hk _ hclosed =>
      rw [hopen k] at hclosed
      cases hclosed
  | @closed k a hk hopen hclosed =>
    cases h' with
    | unclosed hopen' =>
      rw [hopen' k] at hclosed
      cases hclosed
    | @closed k' a' hk' hopen' hclosed' =>
      rcases Nat.lt_trichotomy k k' with hlt | rfl | hlt
      · rw [hopen' k hlt] at hclosed
        cases hclosed
      · rw [hclosed] at hclosed'
        cases hclosed'
        rfl
      · rw [hopen k' hlt] at hclosed'
        cases hclosed'

/-- No more lines are taken than there are. -/
theorem Collects.lines_le {r : Collected} (h : Collects command ls r) : r.lines ≤ ls.length := by
  cases h with
  | closed hk => exact hk
  | unclosed => exact Nat.le_refl _

/-- What closes in some lines is collected from them, whatever stands below. -/
theorem collect_append (h : (collect command A).closed = true) (B : List Text) :
    collect command (A ++ B) = collect command A := by
  obtain ⟨r, hr⟩ : ∃ r, collect command A = r := ⟨_, rfl⟩
  have hcollects : Collects command A r := hr ▸ collects command A
  rw [hr] at h ⊢
  cases hcollects with
  | unclosed => cases h
  | @closed k a hk hopen hclosed =>
    have htake : ∀ j ≤ k, (A ++ B).take j = A.take j :=
      fun j hj => List.take_append_of_le_length (Nat.le_trans hj hk)
    have hlonger : Collects command (A ++ B) _ := .closed (k := k)
      (by rw [List.length_append]; omega)
      (fun j hj => by rw [htake j (Nat.le_of_lt hj)]; exact hopen j hj)
      ((htake k (Nat.le_refl k)).symm ▸ hclosed)
    rw [htake k (Nat.le_refl k)] at hlonger
    exact (collects command (A ++ B)).eq hlonger

/-- What closes in all lines closes in the first of them, and is collected from as few
as it takes. -/
theorem exists_collect_of_closedArgument? (h : closedArgument? command (gathered ls) = some a) :
    ∃ k a', k ≤ ls.length
      ∧ (∀ j < k, closedArgument? command (gathered (ls.take j)) = none)
      ∧ closedArgument? command (gathered (ls.take k)) = some a'
      ∧ collect command ls = ⟨gathered (ls.take k), oneLine a'.content, k, true⟩ := by
  have hcollects := collects command ls
  generalize collect command ls = r at hcollects ⊢
  cases hcollects with
  | unclosed hopen =>
    have hall := hopen ls.length
    rw [List.take_length, h] at hall
    cases hall
  | @closed k a' hk hopen hclosed => exact ⟨k, a', hk, hopen, hclosed, rfl⟩

/-- An argument that closes on the last of some lines is collected from them, whatever
stands below. -/
theorem collect_of_closedArgument? (h : closedArgument? command (gathered ls) = some a)
    (hlf : lineFeed ∉ a.rest) (below : List Text) :
    collect command (ls ++ below) = ⟨gathered ls, oneLine a.content, ls.length, true⟩ := by
  obtain ⟨k, a', hk, -, hclosed, hcollect⟩ := exists_collect_of_closedArgument? h
  rw [collect_append (by rw [hcollect]), hcollect]
  rcases Nat.lt_or_eq_of_le hk with hlt | rfl
  · -- the lines below would stand behind the argument, and a line feed in front of them
    have htake : ls.take k ≠ [] := by
      intro hnil
      rw [hnil, gathered_nil, closedArgument?_nil] at hclosed
      cases hclosed
    have hdrop : ls.drop k ≠ [] := by
      intro hnil
      rw [List.drop_eq_nil_iff] at hnil
      omega
    have hgathered := gathered_append htake hdrop
    rw [List.take_append_drop] at hgathered
    have hall := closedArgument?_append hclosed (lineFeed :: gathered (ls.drop k))
    rw [← hgathered, h] at hall
    cases hall
    exact absurd (List.mem_append_right _ List.mem_cons_self) hlf
  · rw [List.take_length] at hclosed ⊢
    cases hclosed.symm.trans h
    rfl

/-- **All lines are taken** exactly if none of them stands behind the argument. -/
theorem lines_collect_eq_length_iff (hlf : ∀ l ∈ ls, lineFeed ∉ l)
    (h : closedArgument? command (gathered ls) = some a) :
    (collect command ls).lines = ls.length ↔ lineFeed ∉ a.rest := by
  constructor
  · intro hlines hmem
    obtain ⟨k, a', -, hopen, -, hcollect⟩ := exists_collect_of_closedArgument? h
    rw [hcollect] at hlines
    obtain rfl : k = ls.length := hlines
    have hne : ls ≠ [] := by
      rintro rfl
      rw [gathered_nil, closedArgument?_nil] at h
      cases h
    -- without the last line the argument is open, so it ends on that line
    obtain ⟨above, last, rfl⟩ : ∃ above last, ls = above ++ [last] :=
      ⟨_, _, (List.dropLast_concat_getLast hne).symm⟩
    have habove := hopen above.length (by simp)
    rw [List.take_left] at habove
    obtain ⟨x, hx, hxopen⟩ : ∃ x, gathered (above ++ [last]) = x ++ trim last
        ∧ closedArgument? command x = none := by
      by_cases hnil : above = []
      · rw [hnil]
        exact ⟨[], gathered_singleton last, closedArgument?_nil command⟩
      · refine ⟨gathered above ++ [lineFeed], ?_, ?_⟩
        · rw [gathered_append hnil (List.cons_ne_nil last []), gathered_singleton,
            List.append_assoc, List.singleton_append]
        · exact closedArgument?_append_eq_none (by decide) habove
    rw [hx] at h
    have hlt := length_rest_lt_of_closedArgument? hxopen h
    obtain ⟨y, hy⟩ := exists_append_closeBrace h
    have hsuffix : a.rest <:+ trim last := by
      refine List.suffix_of_suffix_length_le ⟨y ++ [closeBrace], ?_⟩
        (List.suffix_append x (trim last)) (Nat.le_of_lt hlt)
      rw [hy, List.append_assoc, List.singleton_append]
    exact hlf last (by simp) ((trim_isInfix last).mem (hsuffix.subset hmem))
  · intro hrest
    have hcollect := collect_of_closedArgument? h hrest []
    rw [List.append_nil] at hcollect
    rw [hcollect]

/-! ## §4. The scan. -/

/-- That the argument of a command closes in a text, as a single scan finds it: the
argument, and the place behind its closing brace. -/
inductive ClosesAt (command t : Text) (a : Argument) (e : Nat) : Prop where
  /-- It opens at `b`. -/
  | mk {b : Nat} (hopens : OpensAt command t b) (hargument : braceArgument? (t.drop b) = some a)
      (hclosed : a.closed = true) (hend : e + a.rest.length = t.length)

/-- Where an argument ends is told by how much it leaves. -/
theorem closesAt_iff {e : Nat} :
    ClosesAt command t a e ↔ closedArgument? command t = some a ∧ e + a.rest.length = t.length := by
  have hif : ∀ {i}, (braceArgument? (t.drop i)).bind Argument.ifClosed = some a
      ↔ braceArgument? (t.drop i) = some a ∧ a.closed = true := by
    intro i
    unfold Argument.ifClosed
    simp only [Option.bind_eq_some_iff, Option.ite_none_right_eq_some, Option.some.injEq]
    constructor
    · rintro ⟨a', ha', hclosed, rfl⟩
      exact ⟨ha', hclosed⟩
    · rintro ⟨ha, hclosed⟩
      exact ⟨a, ha, hclosed, rfl⟩
  rw [closedArgument?_eq_some_iff]
  constructor
  · rintro ⟨hopens, hargument, hclosed, hend⟩
    exact ⟨⟨_, hopens, hif.2 ⟨hargument, hclosed⟩⟩, hend⟩
  · rintro ⟨⟨b, hopens, hargument⟩, hend⟩
    exact ⟨hopens, (hif.1 hargument).1, (hif.1 hargument).2, hend⟩

/-- An argument that closes in some of the lines closes in all of them. -/
theorem Collects.exists_closesAt {r : Collected} (h : Collects command ls r)
    (hr : r.closed = true) : ∃ a e, ClosesAt command (gathered ls) a e := by
  cases h with
  | unclosed => cases hr
  | @closed k a hk hopen hclosed =>
    obtain ⟨u, hu⟩ := gathered_take_prefix k ls
    have hall := closedArgument?_append hclosed u
    rw [hu] at hall
    have hlt : (a.rest ++ u).length < (gathered ls).length :=
      length_rest_lt_of_closedArgument? (closedArgument?_nil command)
        ((List.nil_append (gathered ls)).symm ▸ hall)
    exact ⟨_, _, closesAt_iff.2 ⟨hall, Nat.sub_add_cancel (Nat.le_of_lt hlt)⟩⟩

/-- **The fewest lines.** If the argument closes in all lines, it is collected from
as many as reach to its end, and from no more. -/
theorem Collects.of_closesAt {r : Collected} {e : Nat} (h : Collects command ls r)
    (hscan : ClosesAt command (gathered ls) a e) :
    r.closed = true ∧ r.content = oneLine a.content ∧ r.text = gathered (ls.take r.lines)
      ∧ IsLeast {k | e ≤ (gathered (ls.take k)).length} r.lines := by
  obtain ⟨hall, hend⟩ := closesAt_iff.1 hscan
  cases h with
  | unclosed hopen =>
    have hnone := hopen ls.length
    rw [List.take_length, hall] at hnone
    cases hnone
  | @closed k a' hk hopen hclosed =>
    obtain ⟨u, hu⟩ := gathered_take_prefix k ls
    have hlonger := closedArgument?_append hclosed u
    rw [hu, hall] at hlonger
    obtain rfl := Option.some.inj hlonger
    have hend : e + (a'.rest ++ u).length = (gathered ls).length := hend
    refine ⟨rfl, rfl, rfl, ?_, ?_⟩
    · -- behind the argument stands at least what stands below these lines
      show e ≤ (gathered (ls.take k)).length
      rw [← hu, List.length_append, List.length_append] at hend
      omega
    · intro j (hj : e ≤ (gathered (ls.take j)).length)
      by_contra hlt
      -- with fewer lines the argument is open, so it ends behind them
      obtain ⟨v, hv⟩ := gathered_take_prefix j ls
      have hbelow : (a'.rest ++ u).length < v.length :=
        length_rest_lt_of_closedArgument? (hopen j (Nat.lt_of_not_le hlt)) (hv ▸ hall)
      rw [← hv, List.length_append, List.length_append] at hend
      rw [List.length_append] at hbelow
      omega

/-- **Collecting at a cursor is one scan of its lines.** Reading line by line, with
the opening brace looked for until it is found, comes to what the library gives;
and that is what a scan of all lines finds.  If the argument closes at `e`, the
fewest lines that reach so far are taken.  If not, all are, and one command is
counted as open. -/
theorem Cursor.collect_scan (command : Text) (c : Cursor) :
    Offsets.collect command c = .ok (c.collect command)
      ∧ (∀ a e, ClosesAt command (gathered c.rest) a e →
          ∃ k, IsLeast {k | e ≤ (gathered (c.rest.take k)).length} k
            ∧ c.collect command
              = (⟨gathered (c.rest.take k), oneLine a.content, k, true⟩,
                ⟨c.position + k, c.rest.drop k, c.unbalanced⟩))
      ∧ ((∀ a e, ¬ ClosesAt command (gathered c.rest) a e) →
          ∃ content, c.collect command
            = (⟨gathered c.rest, content, c.rest.length, false⟩,
              ⟨c.position + c.rest.length, [], c.unbalanced + 1⟩)) := by
  obtain ⟨r, hr⟩ : ∃ r, FolioGrid.collect command c.rest = r := ⟨_, rfl⟩
  have hcollects : Collects command c.rest r := hr ▸ collects command c.rest
  have hcursor : c.collect command
      = (r, ⟨c.position + min r.lines c.rest.length, c.rest.drop r.lines,
          c.unbalanced + r.unbalanced⟩) := by
    rw [← hr]
    rfl
  refine ⟨Offsets.collect_eq command c, ?_, ?_⟩
  · intro a e hscan
    obtain ⟨hclosed, hcontent, htext, hleast⟩ := hcollects.of_closesAt hscan
    have hunbalanced : r.unbalanced = 0 := if_pos hclosed
    refine ⟨r.lines, hleast, ?_⟩
    rw [hcursor, Nat.min_eq_left hcollects.lines_le, hunbalanced, ← hcontent, ← htext, ← hclosed]
    rfl
  · intro hnone
    cases hcollects with
    | @closed k a hk hopen hclosed =>
      obtain ⟨a', e, hscan⟩ := (Collects.closed hk hopen hclosed).exists_closesAt rfl
      exact absurd hscan (hnone a' e)
    | unclosed hopen =>
      refine ⟨salvage command (gathered c.rest), ?_⟩
      rw [hcursor, Nat.min_self, List.drop_length]
      rfl

/-- A gloss on two lines, with a word behind it. -/
example : ClosesAt (Markup.command "注")
    (gathered [utf8 "\t\\注\x7b宋", utf8 "人撰\x7d易"])
    ⟨utf8 "宋\n人撰", utf8 "易", true⟩ 16 :=
  closesAt_iff.2 (by decide +kernel)

end FolioGrid
