/-
  FolioGrid.Proofs.Reading.Salvage
  ────────────────────────────────
  **WHAT IS KEPT OF AN OPEN ARGUMENT.**

  Of an argument that does not close, all that stands behind its brace is kept.
  The closing braces at the end are dropped first, and the line feeds then, so
  that a closing brace with a line feed behind it stays:

      HidesBrace                — where this happens, said of the text alone
      Cursor.collect_unclosed   — what is kept, at any cursor

  The lines of a body mostly end with an empty one, and it makes the difference
  whether the braces at the end of the others are dropped.
-/
import FolioGrid.Proofs.Reading.Collecting
import Mathlib.Data.List.DropRight

namespace FolioGrid

open FolioGrid.Text FolioGrid.Markup

variable {t u : Text}

/-! ## §1. Closing braces at the end. -/

/-- A text without the closing braces behind it. -/
def withoutClosers (t : Text) : Text := t.rdropWhile (· = closeBrace)

theorem withoutClosers_concat_closeBrace (t : Text) :
    withoutClosers (t ++ [closeBrace]) = withoutClosers t :=
  List.rdropWhile_concat_pos _ _ _ (by simp)

theorem withoutClosers_append_replicate (t : Text) (n : Nat) :
    withoutClosers (t ++ List.replicate n closeBrace) = withoutClosers t := by
  induction n with
  | zero => rw [List.replicate_zero, List.append_nil]
  | succ n ih =>
    rw [List.replicate_succ', ← List.append_assoc, withoutClosers_concat_closeBrace, ih]

theorem withoutClosers_eq_self_iff : withoutClosers t = t ↔ t.getLast? ≠ some closeBrace := by
  unfold withoutClosers
  rw [List.rdropWhile_eq_self_iff]
  cases t using List.reverseRecOn with
  | nil => simp
  | append_singleton t b => simp

/-- What is taken off is closing braces, and what is left ends with none. -/
theorem exists_withoutClosers_append (t : Text) :
    ∃ n, withoutClosers t ++ List.replicate n closeBrace = t
      ∧ (withoutClosers t).getLast? ≠ some closeBrace := by
  induction t using List.reverseRecOn with
  | nil => exact ⟨0, rfl, by decide⟩
  | append_singleton t b ih =>
    by_cases hb : b = closeBrace
    · obtain ⟨n, ht, hlast⟩ := ih
      rw [hb, withoutClosers_concat_closeBrace]
      refine ⟨n + 1, ?_, hlast⟩
      rw [List.replicate_succ', ← List.append_assoc, ht]
    · have hlast : (t ++ [b]).getLast? ≠ some closeBrace := by simpa using hb
      have hself := withoutClosers_eq_self_iff.2 hlast
      rw [hself]
      exact ⟨0, List.append_nil _, hlast⟩

/-! ## §2. In one line. -/

theorem oneLine_replicate_lineFeed (n : Nat) : oneLine (List.replicate n lineFeed) = [] := by
  unfold oneLine
  rw [List.filter_replicate_of_neg (by decide)]

theorem oneLine_replicate_closeBrace (n : Nat) :
    oneLine (List.replicate n closeBrace) = List.replicate n closeBrace := by
  unfold oneLine
  rw [List.filter_replicate_of_pos (by decide)]

/-- A text that ends with a closing brace in one line ends with it but for line
feeds. -/
theorem exists_of_getLast?_oneLine (h : (oneLine t).getLast? = some closeBrace) :
    ∃ u n, t = u ++ closeBrace :: List.replicate n lineFeed := by
  induction t using List.reverseRecOn with
  | nil => cases h
  | append_singleton t b ih =>
    rw [oneLine_append] at h
    by_cases hb : b = lineFeed
    · -- a line feed at the end is one more
      rw [hb, show oneLine [lineFeed] = [] from rfl, List.append_nil] at h
      obtain ⟨u, n, ht⟩ := ih h
      refine ⟨u, n + 1, ?_⟩
      rw [hb, ht, List.replicate_succ', List.append_assoc, List.cons_append]
    · have hone : oneLine [b] = [b] := List.filter_eq_self.2 (by simpa using hb)
      rw [hone, List.getLast?_concat] at h
      exact ⟨t, 0, by rw [Option.some.inj h, List.replicate_zero]⟩

/-- A text with closing braces at its end that stand on more than one line: behind
one of them come line feeds, and then closing braces or none. -/
inductive HidesBrace : Text → Prop where
  /-- The brace that is hidden stands behind `u`. -/
  | mk (u : Text) (feeds closers : Nat) :
      HidesBrace (u ++ closeBrace :: List.replicate (feeds + 1) lineFeed
        ++ List.replicate closers closeBrace)

/-- **A hidden brace comes to light.** The text in one line still ends with a closing
brace, though those at its end were dropped. -/
theorem getLast?_oneLine_withoutClosers_iff :
    (oneLine (withoutClosers t)).getLast? = some closeBrace ↔ HidesBrace t := by
  constructor
  · intro h
    obtain ⟨closers, ht, hlast⟩ := exists_withoutClosers_append t
    obtain ⟨u, n, hkept⟩ := exists_of_getLast?_oneLine h
    cases n with
    | zero =>
      -- the brace would have been dropped
      rw [hkept, List.replicate_zero, List.getLast?_concat] at hlast
      exact absurd rfl hlast
    | succ feeds =>
      rw [← ht, hkept]
      exact .mk u feeds closers
  · rintro ⟨u, feeds, closers⟩
    have hlast : (u ++ closeBrace :: List.replicate (feeds + 1) lineFeed).getLast?
        ≠ some closeBrace := by
      rw [List.replicate_succ', ← List.cons_append, ← List.append_assoc, List.getLast?_concat]
      decide
    rw [withoutClosers_append_replicate, withoutClosers_eq_self_iff.2 hlast, List.append_cons,
      oneLine_append, oneLine_replicate_lineFeed, List.append_nil, oneLine_append]
    exact List.getLast?_concat

/-- Dropping braces and dropping line feeds may be done in either order exactly if no
brace is hidden. -/
theorem oneLine_withoutClosers_eq_iff :
    oneLine (withoutClosers t) = withoutClosers (oneLine t) ↔ ¬ HidesBrace t := by
  obtain ⟨closers, ht, -⟩ := exists_withoutClosers_append t
  have hone : withoutClosers (oneLine t) = withoutClosers (oneLine (withoutClosers t)) := by
    conv => lhs; rw [← ht]
    rw [oneLine_append, oneLine_replicate_closeBrace, withoutClosers_append_replicate]
  rw [hone, eq_comm, withoutClosers_eq_self_iff, ne_eq, getLast?_oneLine_withoutClosers_iff]

/-- Nothing at the end is dropped from the line exactly if no brace stands there. -/
theorem oneLine_eq_oneLine_withoutClosers_iff :
    oneLine t = oneLine (withoutClosers t) ↔ t.getLast? ≠ some closeBrace := by
  constructor
  · intro h
    obtain ⟨closers, ht, -⟩ := exists_withoutClosers_append t
    conv at h => lhs; rw [← ht]
    rw [oneLine_append, oneLine_replicate_closeBrace] at h
    have hnone : closers = 0 := by simpa using h
    rw [hnone, List.replicate_zero, List.append_nil] at ht
    exact withoutClosers_eq_self_iff.1 ht
  · intro h
    rw [withoutClosers_eq_self_iff.2 h]

/-! ## §3. Open arguments. -/

variable {command : Text} {b : Nat} {c : Cursor} {kept : Text}

/-- What is kept of an argument that opens and does not close. -/
theorem salvage_eq (hopens : OpensAt command t b) (hopen : closedArgument? command t = none) :
    salvage command t = oneLine (withoutClosers (t.drop (b + 1))) := by
  have hdrop : t.drop b = openBrace :: t.drop (b + 1) := by
    obtain ⟨-, -, hbrace, -⟩ := hopens
    obtain ⟨hlt, hget⟩ := List.getElem?_eq_some_iff.1 hbrace
    rw [List.drop_eq_getElem_cons hlt, hget]
  have hargument : argumentOf? command t = some (braces.argument (t.drop (b + 1))) := by
    refine argumentOf?_eq_some_iff.2 ⟨b, hopens, ?_⟩
    rw [hdrop, braceArgument?_openBrace]
  have hscan : braces.balanced? (t.drop (b + 1)) = none := by
    unfold closedArgument? at hopen
    rw [hargument] at hopen
    exact Delimiters.ifClosed_argument_eq_none_iff.1 hopen
  unfold salvage
  rw [hargument]
  unfold Delimiters.argument
  rw [hscan]
  rfl

/-- Collecting that comes to no end. -/
theorem Cursor.closedArgument?_of_unclosed (h : (c.collect command).1.closed = false) :
    closedArgument? command (gathered c.rest) = none := by
  have hcollects : Collects command c.rest (c.collect command).1 := collects command c.rest
  generalize (c.collect command).1 = r at h hcollects
  cases hcollects with
  | closed => cases h
  | unclosed hopen =>
    have hall := hopen c.rest.length
    rwa [List.take_length] at hall

theorem Cursor.collect_of_none (h : closedArgument? command (gathered c.rest) = none) :
    (c.collect command).1
      = ⟨gathered c.rest, salvage command (gathered c.rest), c.rest.length, false⟩ := by
  have hcollects : Collects command c.rest (c.collect command).1 := collects command c.rest
  generalize (c.collect command).1 = r at hcollects
  cases hcollects with
  | unclosed => rfl
  | @closed k a hk hopen hclosed =>
    -- what closes in some of the lines closes in all
    obtain ⟨u, hu⟩ := gathered_take_prefix k c.rest
    have hall := closedArgument?_append hclosed u
    rw [hu, h] at hall
    cases hall

/-- **What is kept of an open argument.** Let `kept` be what stands behind its brace,
on all lines at the cursor.  The closing braces at its end are dropped, and then the
line feeds.  This is what is left in the other order, with no closing brace at its
end, exactly if `kept` hides no brace.  With lines below that hold no word, the
argument is still open, and now all of `kept` is left: the same as without them
exactly if no brace stands at its end. -/
theorem Cursor.collect_unclosed (hopens : OpensAt command (gathered c.rest) b)
    (hclosed : (c.collect command).1.closed = false)
    (hkept : (gathered c.rest).drop (b + 1) = kept) :
    (c.collect command).1.content = oneLine (withoutClosers kept)
      ∧ ((c.collect command).1.content = withoutClosers (oneLine kept) ↔ ¬ HidesBrace kept)
      ∧ ((c.collect command).1.content.getLast? = some closeBrace ↔ HidesBrace kept)
      ∧ ∀ blank, blank ≠ [] → (∀ l ∈ blank, trim l = []) →
          (({ c with rest := c.rest ++ blank } : Cursor).collect command).1.closed = false
            ∧ (({ c with rest := c.rest ++ blank } : Cursor).collect command).1.content
              = oneLine kept
            ∧ (oneLine kept = (c.collect command).1.content
              ↔ kept.getLast? ≠ some closeBrace) := by
  have hopen := Cursor.closedArgument?_of_unclosed hclosed
  have hcontent : (c.collect command).1.content = oneLine (withoutClosers kept) := by
    rw [Cursor.collect_of_none hopen, ← hkept]
    exact salvage_eq hopens hopen
  refine ⟨hcontent, ?_, ?_, ?_⟩
  · rw [hcontent, oneLine_withoutClosers_eq_iff]
  · rw [hcontent, getLast?_oneLine_withoutClosers_iff]
  · intro blank hblank hwhite
    have hne : c.rest ≠ [] := by
      intro hnil
      have hlt := hopens.lt
      rw [hnil] at hlt
      exact absurd hlt (Nat.not_lt_zero b)
    have hgathered := gathered_append_blank hne hwhite
    have hfeeds : closeBrace ∉ List.replicate blank.length lineFeed :=
      fun hmem => absurd (List.eq_of_mem_replicate hmem) (by decide)
    -- the lines below are line feeds and no more, and they close nothing
    have hstill : closedArgument? command (gathered (c.rest ++ blank)) = none := by
      rw [hgathered]
      exact closedArgument?_append_eq_none hfeeds hopen
    have hlonger : (gathered (c.rest ++ blank)).drop (b + 1)
        = kept ++ List.replicate blank.length lineFeed := by
      rw [hgathered, List.drop_append_of_le_length (Nat.succ_le_of_lt hopens.lt), hkept]
    have hlast : (kept ++ List.replicate blank.length lineFeed).getLast? ≠ some closeBrace := by
      obtain ⟨n, hn⟩ := Nat.exists_eq_succ_of_ne_zero (mt List.length_eq_zero_iff.1 hblank)
      rw [hn, List.replicate_succ', ← List.append_assoc, List.getLast?_concat]
      decide
    rw [Cursor.collect_of_none (c := { c with rest := c.rest ++ blank }) hstill]
    refine ⟨rfl, ?_, ?_⟩
    · show salvage command (gathered (c.rest ++ blank)) = oneLine kept
      rw [salvage_eq (hgathered ▸ hopens.append _) hstill, hlonger,
        withoutClosers_eq_self_iff.2 hlast, oneLine_append, oneLine_replicate_lineFeed,
        List.append_nil]
    · rw [hcontent, oneLine_eq_oneLine_withoutClosers_iff]

/-- A gloss with a group in it, which does not close. -/
def openGloss : Text := utf8 "\\注\x7b甲\x7b乙\x7d"

/-- At the end of the lines the brace of the group is dropped, and no other stands in
front of it; two empty lines below bring it back. -/
theorem content_collect_openGloss :
    ((Cursor.ofLines [openGloss]).collect (Markup.command "注")).1.content = utf8 "甲\x7b乙"
      ∧ ¬ HidesBrace (utf8 "甲\x7b乙\x7d")
      ∧ ((Cursor.ofLines ([openGloss] ++ [[], []])).collect (Markup.command "注")).1.content
        = utf8 "甲\x7b乙\x7d" := by
  have hopens : OpensAt (Markup.command "注") (gathered (Cursor.ofLines [openGloss]).rest) 4 :=
    braceOffset?_eq_some_iff.1 (by decide +kernel)
  have hkept : (gathered (Cursor.ofLines [openGloss]).rest).drop 5 = utf8 "甲\x7b乙\x7d" := by
    decide +kernel
  obtain ⟨hcontent, -, hlast, hbelow⟩ :=
    Cursor.collect_unclosed hopens (by decide +kernel) hkept
  have hline : oneLine (withoutClosers (utf8 "甲\x7b乙\x7d")) = utf8 "甲\x7b乙" := by
    decide +kernel
  refine ⟨hcontent.trans hline, ?_, ?_⟩
  · rw [← hlast, hcontent, hline]
    decide +kernel
  · obtain ⟨-, hmore, -⟩ := hbelow [[], []] (by decide) (by decide +kernel)
    exact hmore.trans (by decide +kernel)

/-- With one empty line below, what is kept ends with a closing brace, and is not what
is kept without it. -/
theorem content_collect_openGloss_nil :
    OpensAt (Markup.command "注") (gathered (Cursor.ofLines [openGloss, []]).rest) 4
      ∧ ((Cursor.ofLines [openGloss, []]).collect (Markup.command "注")).1.closed = false
      ∧ ((Cursor.ofLines [openGloss, []]).collect (Markup.command "注")).1.content.getLast?
        = some closeBrace
      ∧ ((Cursor.ofLines [openGloss, []]).collect (Markup.command "注")).1.content
        ≠ ((Cursor.ofLines [openGloss]).collect (Markup.command "注")).1.content :=
  ⟨braceOffset?_eq_some_iff.1 (by decide +kernel), by decide +kernel⟩

end FolioGrid
