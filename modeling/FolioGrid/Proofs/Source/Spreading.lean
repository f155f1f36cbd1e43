/-
  FolioGrid.Proofs.Source.Spreading
  ────────────────────────────────
  **SEALS SPREAD OVER LINES.**

  Between the characters of a seal's arguments blanks may stand, line feeds among them,
  and the seal is kept without them:

      Spread                      — a text with blanks in front of its characters
      Stamp.Arguments             — the options and the file of a seal
      Document.ofText_spreadStamp — what is read of a seal whose arguments are spread

  How far a seal goes is told from the first brace behind its command.  Where the options
  hold a group, this is the brace of that group, and what stands on the lines below its
  end is not taken.
-/
import FolioGrid.Proofs.Document.Sequence
import FolioGrid.Proofs.Markup.Characters
import FolioGrid.Proofs.Source.Stamp
import FolioGrid.Proofs.Text.Characters
import Mathlib.Data.List.Flatten

namespace FolioGrid

open FolioGrid.Text FolioGrid.Markup

variable {t s o f : Text} {ls : List Text}

/-! ## §1. Spread texts. -/

/-- A text, and the same with blanks in front of each of its characters, in whatever
number. -/
inductive Spread : Text → Text → Prop where
  /-- No character. -/
  | nil : Spread [] []
  /-- Blanks, a character, and more behind it. -/
  | cons {u t s : Text} (hu : Blanks wideSpace u) (c : Char) (h : Spread t s) :
      Spread (String.utf8EncodeChar c ++ t) (u ++ (String.utf8EncodeChar c ++ s))

namespace Spread

/-- It starts with a blank or with the first byte of a character. -/
theorem head?_ne (h : Spread t s) : s.head? ≠ some 0x80 := by
  cases h with
  | nil => decide
  | @cons u t s hu c h =>
    obtain ⟨lead, inner, hc, hlead, -⟩ := exists_lead c
    intro hhead
    rw [hc] at hhead
    cases u with
    | nil =>
      rw [Option.some.inj hhead] at hlead
      cases hlead
    | cons b u => exact hu.head?_ne hhead

/-- **Without its blanks** it is the text. -/
theorem removeBlanks_eq (h : Spread t s) (ht : Solid t) : removeBlanks s = t := by
  induction h with
  | nil => rfl
  | @cons u t s hu c h ih =>
    have hc := ht.of_infix (List.prefix_append (String.utf8EncodeChar c) t).isInfix
    have htail := ht.of_infix (List.suffix_append (String.utf8EncodeChar c) t).isInfix
    rw [removeBlanks_blanks_append hu, removeBlanks_append h.head?_ne, hc.removeBlanks_eq, ih htail]

/-- Bytes of a kind that no blank has are those of the text. -/
theorem filter_eq (h : Spread t s) {p : UInt8 → Bool}
    (hp : ∀ b, p b = true → isSpace b = false ∧ b ∉ wideSpace) : s.filter p = t.filter p := by
  induction h with
  | nil => rfl
  | @cons u t s hu c h ih =>
    have hnone : u.filter p = [] := by
      rw [List.filter_eq_nil_iff]
      intro b hb hpb
      rcases hu.mem hb with hspace | hwide
      · rw [(hp b hpb).1] at hspace
        cases hspace
      · exact (hp b hpb).2 hwide
    rw [List.filter_append, List.filter_append, List.filter_append, hnone, ih, List.nil_append]

/-- No blank stands behind the last character. -/
theorem getLast?_eq (h : Spread t s) : s.getLast? = t.getLast? := by
  induction h with
  | nil => rfl
  | @cons u t s hu c h ih =>
    obtain ⟨lead, inner, hc, -, -⟩ := exists_lead c
    rw [List.getLast?_append, List.getLast?_append, List.getLast?_append, ih, Option.or_assoc]
    cases t.getLast? with
    | some b => rfl
    | none => rw [hc]; simp [List.getLast?_cons]

/-- Further blanks in front. -/
theorem blanks_append {u : Text} (hu : Blanks wideSpace u) (h : Spread t s) (hne : t ≠ []) :
    Spread t (u ++ s) := by
  cases h with
  | nil => exact absurd rfl hne
  | @cons v t s hv c h =>
    rw [← List.append_assoc]
    exact .cons (hu.append hv) c h

/-- Characters in front, with no blank between them. -/
theorem encode_append (cs : List Char) (h : Spread t s) :
    Spread (encode cs ++ t) (encode cs ++ s) := by
  induction cs with
  | nil => exact h
  | cons c cs ih =>
    rw [encode_cons, List.append_assoc, List.append_assoc]
    exact .cons .nil c ih

theorem not_mem (h : Spread t s) {b : UInt8} (hb : b ∉ t) (hspace : isSpace b = false)
    (hwide : b ∉ wideSpace) : b ∉ s := by
  have hfilter := h.filter_eq (p := (· = b)) (by
    intro a ha
    rw [of_decide_eq_true ha]
    exact ⟨hspace, hwide⟩)
  intro hmem
  have hin : b ∈ t.filter (· = b) := by
    rw [← hfilter, List.mem_filter]
    exact ⟨hmem, by simp⟩
  exact hb (List.mem_filter.1 hin).1

end Spread

/-! ## §2. Blanks of lines. -/

theorem removeBlanks_joinLines (ls : List Text) :
    removeBlanks (joinLines ls) = ls.flatMap removeBlanks := by
  induction ls with
  | nil => rfl
  | cons l ls ih =>
    by_cases hls : ls = []
    · simp [hls, joinLines]
    · have hseam : (lineFeed :: joinLines ls).head? ≠ some 0x80 := by
        show some lineFeed ≠ some 0x80
        decide
      rw [joinLines_cons l hls, removeBlanks_append hseam, removeBlanks_cons_of_isSpace (by decide),
        ih, List.flatMap_cons]

theorem removeBlanks_gathered (ls : List Text) :
    removeBlanks (gathered ls) = ls.flatMap removeBlanks := by
  unfold gathered
  rw [removeBlanks_joinLines, List.flatMap_map]
  simp only [removeBlanks_trim]

/-- Whether a byte tells how far an argument goes, or on which line it ends. -/
def structural (b : UInt8) : Bool := [openBrace, closeBrace, lineFeed].contains b

/-- Trimming lines takes away none of these bytes. -/
theorem filter_gathered (hlf : ∀ l ∈ ls, lineFeed ∉ l) :
    (gathered ls).filter structural = (joinLines ls).filter structural := by
  have hblank : ∀ u, Blanks wideSpace u → lineFeed ∉ u → u.filter structural = [] := by
    intro u hu hfree
    rw [List.filter_eq_nil_iff]
    intro b hb hkept
    have hkinds : ∀ b ∈ [openBrace, closeBrace, lineFeed],
        (isSpace b = false ∨ b = lineFeed) ∧ b ∉ wideSpace := by
      decide +kernel
    obtain ⟨hkind, hwide⟩ := hkinds b (List.contains_iff_mem.1 hkept)
    rcases hu.mem hb with hspace | hmem
    · rcases hkind with hkind | rfl
      · rw [hkind] at hspace
        cases hspace
      · exact hfree hb
    · exact hwide hmem
  have htrim : ∀ l ∈ ls, (trim l).filter structural = l.filter structural := by
    intro l hl
    obtain ⟨u, v, hu, hv, ht⟩ := exists_blanks_trim l
    have hfree := hlf l hl
    rw [← ht] at hfree
    simp only [List.mem_append, not_or] at hfree
    conv => rhs; rw [← ht]
    rw [List.filter_append, List.filter_append, hblank u hu hfree.1.1, hblank v hv hfree.2,
      List.nil_append, List.append_nil]
  unfold gathered
  rw [filter_joinLines (by decide), filter_joinLines (by decide), List.map_map]
  exact congrArg joinLines (List.map_congr_left htrim)

/-! ## §3. Seals. -/

namespace Stamp

/-- The options and the file of a seal. -/
structure Arguments (o f : Text) : Prop where
  /-- None of them is empty. -/
  nonempty : o ≠ [] ∧ f ≠ []
  /-- They hold no blank of their own. -/
  solid : Solid o ∧ Solid f
  /-- They hold no command. -/
  noBackslash : backslash ∉ o ∧ backslash ∉ f
  /-- The options hold no bracket. -/
  noBracket : openBracket ∉ o ∧ closeBracket ∉ o
  /-- In both each brace has its partner. -/
  balanced : braces.Balanced o ∧ braces.Balanced f

theorem canonical_eq_append (o f : Text) :
    canonical o f = stampCommand ++ openBracket :: (o ++ closeBracket :: group f) := by
  simp [canonical, option]

/-- A closed argument, its delimiters and what stands behind it. -/
theorem length_of_closed {d : Delimiters} {a : Argument} (h : d.argument? t = some a)
    (hclosed : a.closed = true) : t.length = a.content.length + a.rest.length + 2 := by
  rcases Delimiters.eq_of_argument? h with ⟨rfl, -⟩ | ⟨-, -, hopen⟩
  · simp
    omega
  · rw [hclosed] at hopen
    cases hopen

/-- A seal is no longer than the text from which it is taken. -/
theorem length_markup_le (c : Collected) : (markup c).length ≤ (removeBlanks c.text).length := by
  have hfilled : ∀ {a b : Argument}, filled a = some b → a = b ∧ a.closed = true := by
    intro a b h
    unfold filled at h
    obtain ⟨hclosed, heq⟩ := Option.ite_none_right_eq_some.1 h
    exact ⟨Option.some.inj heq, hclosed.1⟩
  have hcanonical : ∀ {flat m : Text}, canonical? flat = some m → m.length ≤ flat.length := by
    intro flat m h
    obtain ⟨arguments, harguments, h⟩ := Option.bind_eq_some_iff.1 h
    obtain ⟨options, hoptions, h⟩ := Option.bind_eq_some_iff.1 h
    obtain ⟨file, hfile, h⟩ := Option.bind_eq_some_iff.1 h
    obtain ⟨options', hoption, hfull⟩ := Option.bind_eq_some_iff.1 hoptions
    obtain ⟨file', hgroup, hfull'⟩ := Option.bind_eq_some_iff.1 hfile
    obtain ⟨rfl, hclosed⟩ := hfilled hfull
    obtain ⟨rfl, hclosed'⟩ := hfilled hfull'
    have hflat := length_of_after? harguments
    have hleft := length_of_closed hoption hclosed
    have hright := length_of_closed hgroup hclosed'
    have hskip := (List.dropWhile_sublist (l := arguments) isSpace).length_le
    cases h
    simp [option, group]
    omega
  unfold markup
  dsimp only
  split
  · cases h : canonical? (removeBlanks c.text) with
    | none => exact Nat.le_refl _
    | some m => exact hcanonical h
  · exact Nat.le_refl _

/-- The last byte is the brace behind the file. -/
theorem getLast?_spread (hs : Spread (o ++ closeBracket :: group f) s) :
    (openBracket :: s).getLast? = some closeBrace := by
  have hend : (o ++ closeBracket :: group f).getLast? = some closeBrace := by
    rw [show o ++ closeBracket :: group f = (o ++ closeBracket :: openBrace :: f) ++ [closeBrace]
      by simp [group], List.getLast?_concat]
  rw [List.getLast?_cons, hs.getLast?_eq, hend]
  rfl

/-! ## §4. How far a seal goes. -/

namespace Arguments

theorem solid_flat (h : Arguments o f) : Solid (o ++ closeBracket :: group f) := by
  have hgroup : Solid ([] ++ openBrace :: (f ++ closeBrace :: [])) :=
    Solid.nil.append_cons (by decide) (by decide)
      (h.solid.2.append_cons (by decide) (by decide) Solid.nil)
  exact h.solid.1.append_cons (by decide) (by decide) hgroup

theorem balanced_flat (h : Arguments o f) : braces.Balanced (o ++ closeBracket :: group f) := by
  have hbracket : braces.Balanced [closeBracket] := by decide
  exact h.balanced.1.append braces_ne (hbracket.append braces_ne (balanced_group h.balanced.2))

/-- The argument behind the first brace closes.  If the options hold no brace, this is
the file, and nothing stands behind it. -/
theorem exists_closed (h : Arguments o f) :
    ∃ a, argumentOf? stampCommand (canonical o f) = some a ∧ a.closed = true
      ∧ (openBrace ∉ o → a.rest = []) := by
  have hbalanced : braces.Balanced (openBracket :: (o ++ closeBracket :: group f)) := by
    have hbracket : braces.Balanced [openBracket] := by decide
    exact hbracket.append braces_ne h.balanced_flat
  obtain ⟨a, ha, hclosed⟩ := exists_closed_of_balanced hbalanced (by simp [group])
  have hargument : argumentOf? stampCommand (canonical o f) = some a := by
    rw [canonical_eq_append, argumentOf?_append, ha]
  refine ⟨a, hargument, hclosed, ?_⟩
  intro ho
  have hcommand : argumentOf? stampCommand (canonical o f) = some ⟨f, [], true⟩ := by
    rw [canonical_eq]
    exact argumentOf?_commandLine (fun _ heq => Option.some.inj heq ▸ ho)
      (h.balanced.2.passes braces_ne)
  rw [Option.some.inj (hargument.symm.trans hcommand)]

/-- So it does if they are spread, since blanks are no braces. -/
theorem exists_closed_spread (h : Arguments o f)
    (hs : Spread (o ++ closeBracket :: group f) s) :
    ∃ a, argumentOf? stampCommand (stampCommand ++ openBracket :: s) = some a
      ∧ a.closed = true ∧ (openBrace ∉ o → a.rest = []) := by
  obtain ⟨a₀, ha₀, hclosed₀, hplain⟩ := h.exists_closed
  rw [canonical_eq_append, argumentOf?_append] at ha₀
  have hbraces : ∀ b, [openBrace, closeBrace].contains b = true →
      isSpace b = false ∧ b ∉ wideSpace := by
    intro b hb
    have hkinds : ∀ b ∈ [openBrace, closeBrace], isSpace b = false ∧ b ∉ wideSpace := by
      decide +kernel
    exact hkinds b (List.contains_iff_mem.1 hb)
  have hfilter : (openBracket :: (o ++ closeBracket :: group f)).filter
      ([openBrace, closeBrace].contains ·)
      = (openBracket :: s).filter ([openBrace, closeBrace].contains ·) := by
    rw [List.filter_cons_of_neg (by decide), List.filter_cons_of_neg (by decide),
      hs.filter_eq hbraces]
  obtain ⟨a, ha, hclosed, hrest⟩ :=
    exists_braceArgument?_of_filter_eq (by decide) (by decide) hfilter ha₀
  refine ⟨a, (argumentOf?_append _ _).trans ha, hclosed.trans hclosed₀, ?_⟩
  intro ho
  rw [hplain ho] at hrest
  -- what stands behind the argument holds no brace, and the last byte is one
  obtain ⟨x, hx⟩ : a.rest <:+ openBracket :: s :=
    (Delimiters.rest_suffix ha).trans (List.dropWhile_suffix (· ≠ openBrace))
  by_contra hne
  have hlast := getLast?_spread hs
  rw [← hx, List.getLast?_append_of_ne_nil x hne] at hlast
  have hin : closeBrace ∈ a.rest.filter ([openBrace, closeBrace].contains ·) := by
    rw [List.mem_filter]
    exact ⟨List.mem_of_getLast? hlast, by decide⟩
  rw [hrest] at hin
  cases hin

end Arguments

/-- The lines of a seal whose arguments are spread, and the same trimmed. -/
theorem exists_lines (s : Text) :
    ∃ first rest u, lines (stampCommand ++ openBracket :: s)
        = (stampCommand ++ openBracket :: first) :: rest
      ∧ gathered (lines (stampCommand ++ openBracket :: s)) = stampCommand ++ openBracket :: u := by
  obtain ⟨first, rest, -, hlines⟩ := exists_lines_append (p := stampCommand ++ [openBracket])
    (by decide) s
  rw [← List.append_cons, ← List.append_cons] at hlines
  obtain ⟨u, hu⟩ := exists_joinLines_cons (rest.map trim)
  refine ⟨first, rest, trimRight first ++ u, hlines, ?_⟩
  have htrim : trim (stampCommand ++ openBracket :: first)
      = stampCommand ++ openBracket :: trimRight first :=
    trim_append_cons (b := backslash) rfl (by decide) (by decide)
  unfold gathered
  rw [hlines, List.map_cons, htrim, hu, List.append_assoc, List.cons_append]

/-- Trimmed or not, an argument ends with a line below it or with none. -/
theorem exists_closedArgument?_gathered {a : Argument}
    (h : argumentOf? stampCommand (stampCommand ++ openBracket :: s) = some a)
    (hclosed : a.closed = true) :
    ∃ a', closedArgument? stampCommand (gathered (lines (stampCommand ++ openBracket :: s)))
        = some a' ∧ (lineFeed ∈ a'.rest ↔ lineFeed ∈ a.rest) := by
  obtain ⟨first, rest, u, -, hgathered⟩ := exists_lines s
  have hlf : ∀ l ∈ lines (stampCommand ++ openBracket :: s), lineFeed ∉ l :=
    fun l => lineFeed_not_mem_of_mem_lines
  have hfilter := filter_gathered hlf
  rw [joinLines_lines, hgathered, List.filter_append, List.filter_append] at hfilter
  have hsame := List.append_cancel_left hfilter
  rw [argumentOf?_append] at h
  obtain ⟨a', ha', hclosed', hrest⟩ :=
    exists_braceArgument?_of_filter_eq (by decide) (by decide) hsame.symm h
  refine ⟨a', ?_, ?_⟩
  · unfold closedArgument?
    rw [hgathered, argumentOf?_append, ha']
    exact if_pos (hclosed'.trans hclosed)
  · have hkept : ∀ t : Text, lineFeed ∈ t.filter structural ↔ lineFeed ∈ t := by
      intro t
      rw [List.mem_filter]
      exact ⟨fun h => h.1, fun h => ⟨h, by decide⟩⟩
    rw [← hkept, hrest, hkept]

/-- Without blanks a seal whose arguments are spread is in its canonical form. -/
theorem removeBlanks_spread (h : Arguments o f) (hs : Spread (o ++ closeBracket :: group f) s) :
    removeBlanks (stampCommand ++ openBracket :: s) = canonical o f := by
  have hseam : (openBracket :: s).head? ≠ some 0x80 := by
    show some openBracket ≠ some 0x80
    decide
  have hopener : ¬ wideSpace <+: openBracket :: s := by
    intro hwide
    exact absurd (List.cons_prefix_cons.1 hwide).1 (by decide)
  have hcommand : Solid stampCommand := ⟨by decide +kernel, by decide +kernel⟩
  rw [removeBlanks_append hseam, hcommand.removeBlanks_eq, removeBlanks_cons (by decide) hopener,
    hs.removeBlanks_eq h.solid_flat, canonical_eq_append]

/-- The last of its lines is not blank. -/
theorem exists_last_line_spread (hs : Spread (o ++ closeBracket :: group f) s) :
    ∃ above last, lines (stampCommand ++ openBracket :: s) = above ++ [last]
      ∧ removeBlanks last ≠ [] := by
  have hend : (stampCommand ++ openBracket :: s).getLast? = some closeBrace := by
    rw [List.getLast?_append_of_ne_nil _ (List.cons_ne_nil _ _), getLast?_spread hs]
  obtain ⟨x, hx⟩ := List.getLast?_eq_some_iff.1 hend
  obtain ⟨above, last, -, hconcat⟩ := exists_last_line x
  refine ⟨above, last ++ [closeBrace], hx ▸ hconcat [closeBrace] (by decide), ?_⟩
  rw [removeBlanks_append (by decide)]
  exact List.append_ne_nil_of_right_ne_nil _ (by decide)

/-- **A seal is kept with both its arguments** exactly if all its lines are taken. -/
theorem markup_collect_eq_iff (h : Arguments o f)
    (hs : Spread (o ++ closeBracket :: group f) s) {a : Argument}
    (ha : closedArgument? stampCommand (gathered (lines (stampCommand ++ openBracket :: s)))
      = some a) :
    markup (collect stampCommand (lines (stampCommand ++ openBracket :: s))) = canonical o f
      ↔ (collect stampCommand (lines (stampCommand ++ openBracket :: s))).lines
        = (lines (stampCommand ++ openBracket :: s)).length := by
  have hflat : (lines (stampCommand ++ openBracket :: s)).flatMap removeBlanks = canonical o f := by
    rw [← removeBlanks_joinLines, joinLines_lines, removeBlanks_spread h hs]
  obtain ⟨above, last, hlines, hlast⟩ := exists_last_line_spread hs
  obtain ⟨k, a', hk, -, -, hcollect⟩ := exists_collect_of_closedArgument? ha
  rw [hcollect]
  rw [hlines] at hk hflat ⊢
  show _ ↔ k = (above ++ [last]).length
  constructor
  · intro hmarkup
    by_contra hne
    have hshort : k ≤ above.length := by
      rw [List.length_append, List.length_singleton] at hk hne
      omega
    -- the last line is missing, and it has more than blanks
    have hmissing :=
      length_markup_le ⟨gathered ((above ++ [last]).take k), oneLine a'.content, k, true⟩
    rw [hmarkup, ← hflat, removeBlanks_gathered, List.take_append_of_le_length hshort] at hmissing
    have hpos := List.length_pos_of_ne_nil hlast
    have htaken := ((List.take_sublist k above).flatMap removeBlanks).length_le
    rw [List.flatMap_append, List.flatMap_singleton, List.length_append] at hmissing
    omega
  · rintro rfl
    have hcanonical : canonical? (commandLine stampCommand (some o) f []) = _ :=
      canonical?_line (.of_not_mem h.noBracket.1 h.noBracket.2) (h.balanced.2.passes braces_ne)
        h.nonempty
    rw [← canonical_eq] at hcanonical
    unfold markup
    dsimp only
    rw [List.take_length, removeBlanks_gathered, hflat, hcanonical]
    rfl

/-- Such a seal holds no mark of an end, nor does any of its lines. -/
theorem not_infix_spread (h : Arguments o f) (hs : Spread (o ++ closeBracket :: group f) s) :
    ∀ l ∈ lines (stampCommand ++ openBracket :: s),
      ∀ m ∈ documentEnd :: bodyEnds, ¬ m <:+: l := by
  have hkinds : ∀ b ∈ [openBracket, closeBracket, openBrace, closeBrace], backslash ≠ b := by
    decide +kernel
  have hflat : backslash ∉ o ++ closeBracket :: group f := by
    simp only [List.forall_mem_cons] at hkinds
    simp [group, h.noBackslash.1, h.noBackslash.2, hkinds]
  have hspread : backslash ∉ s := hs.not_mem hflat (by decide) (by decide)
  have hname : backslash ∉ utf8 "印章" ++ openBracket :: s := by
    rw [List.mem_append, List.mem_cons, not_or, not_or]
    exact ⟨by decide +kernel, hkinds _ List.mem_cons_self, hspread⟩
  have hother : ∀ m ∈ documentEnd :: bodyEnds,
      ¬ m <+: stampCommand ∧ ¬ stampCommand <+: m := by decide +kernel
  intro l hl m hm hin
  exact not_infix_command hother hname m hm (hin.trans (isInfix_of_mem_lines hl))

/-- **Lines from such a seal on** give the seal, and then what the lines give that it
does not take. -/
theorem readLines_spread {d : Dialect} (hd : d.BuiltIn) {a : Argument}
    (ha : closedArgument? stampCommand (gathered (lines (stampCommand ++ openBracket :: s)))
      = some a) (below : List Text) :
    ∃ r c, collect stampCommand (lines (stampCommand ++ openBracket :: s)) = c
      ∧ r.blocks = [.stamp (markup c)] ∧ r.unbalanced = 0
      ∧ readLines d (lines (stampCommand ++ openBracket :: s) ++ below)
        = r ++ readLines d ((lines (stampCommand ++ openBracket :: s) ++ below).drop c.lines) := by
  obtain ⟨first, rest, -, hlines, -⟩ := exists_lines s
  obtain ⟨k, a', -, -, hprefix, hcollect⟩ := exists_collect_of_closedArgument? ha
  obtain ⟨j, rfl⟩ : ∃ j, k = j + 1 := by
    refine Nat.exists_eq_succ_of_ne_zero ?_
    rintro rfl
    rw [List.take_zero, gathered_nil, closedArgument?_nil] at hprefix
    cases hprefix
  have hclosed : (collect stampCommand (lines (stampCommand ++ openBracket :: s))).closed = true :=
    congrArg Collected.closed hcollect
  have hread : Line.read d (stampCommand ++ openBracket :: first) (rest ++ below)
      = (collect stampCommand (lines (stampCommand ++ openBracket :: s))).reading stampCommand
          [.stamp (markup (collect stampCommand (lines (stampCommand ++ openBracket :: s))))] := by
    rw [read_openBracket hd, ← List.cons_append, ← hlines]
    unfold read
    rw [collect_append hclosed]
  refine ⟨Line.read d (stampCommand ++ openBracket :: first) (rest ++ below), _, rfl, ?_, ?_, ?_⟩
  · rw [hread]
    rfl
  · rw [hread]
    exact if_pos hclosed
  · have htaken : (Line.read d (stampCommand ++ openBracket :: first) (rest ++ below)).taken - 1
        = j := by
      rw [hread, hcollect]
      show max 1 (j + 1) - 1 = j
      omega
    rw [hlines, List.cons_append, readLines_cons, htaken, ← hlines, hcollect]
    rfl

/-- They give the seal with both its arguments, and what is said below it, exactly if
no line feed stands behind the argument at the first brace. -/
theorem blocks_readLines_spread_iff {d : Dialect} (hd : d.BuiltIn) (h : Arguments o f)
    (hs : Spread (o ++ closeBracket :: group f) s) {a : Argument}
    (ha : argumentOf? stampCommand (stampCommand ++ openBracket :: s) = some a)
    (hclosed : a.closed = true) (below : List Text) :
    ((readLines d (lines (stampCommand ++ openBracket :: s) ++ below)).blocks
          = .stamp (canonical o f) :: (readLines d below).blocks
        ∧ (readLines d (lines (stampCommand ++ openBracket :: s) ++ below)).unbalanced
          = (readLines d below).unbalanced) ↔ lineFeed ∉ a.rest := by
  obtain ⟨a', ha', hrest⟩ := exists_closedArgument?_gathered ha hclosed
  obtain ⟨r, c, hc, hblocks, hunbalanced, hread⟩ := readLines_spread hd ha' below
  -- either side is about whether all lines of the seal are taken
  have hmarkup := markup_collect_eq_iff h hs ha'
  have hall := lines_collect_eq_length_iff (fun l => lineFeed_not_mem_of_mem_lines) ha'
  rw [hc] at hmarkup hall
  rw [hread, ← hrest, ← hall]
  constructor
  · rintro ⟨heq, -⟩
    have hfirst : r.blocks ++ _ = Block.stamp (canonical o f) :: _ := heq
    rw [hblocks] at hfirst
    exact hmarkup.1 (Block.stamp.inj (List.cons.inj hfirst).1)
  · intro hlength
    rw [hlength, List.drop_left]
    refine ⟨?_, ?_⟩
    · show r.blocks ++ (readLines d below).blocks = _
      rw [hblocks, hmarkup.2 hlength, List.singleton_append]
    · show r.unbalanced + (readLines d below).unbalanced = _
      rw [hunbalanced, Nat.zero_add]

end Stamp

/-! ## §5. Documents. -/

/-- **A seal may be spread over lines**, its options and its file with any blanks
between their characters, and further lines below it.  The body gives the seal in its
canonical form, what the further lines give, and nothing left open, exactly if the
argument at the first brace closes on the last line of the seal.  If the options hold
no brace, it does. -/
theorem Document.ofText_spreadStamp {name : Text} {d : Dialect} {below : List Text}
    (hd : Dialect.named name = .ok d) (h : Stamp.Arguments o f)
    (hs : Spread (o ++ closeBracket :: group f) s) (hlf : ∀ l ∈ below, lineFeed ∉ l)
    (hends : ∀ l ∈ below, ∀ m ∈ documentEnd :: bodyEnds, ¬ m <:+: l) :
    ∃ doc more,
      Document.ofText d
          (inDocument (joinLines ((Stamp.stampCommand ++ openBracket :: s) :: below))) = .ok doc
        ∧ Document.ofText d (inDocument (joinLines below)) = .ok more
        ∧ ((doc.blocks = .stamp (Stamp.canonical o f) :: more.blocks
              ∧ doc.unbalanced = more.unbalanced)
            ↔ ∃ a, argumentOf? Stamp.stampCommand (Stamp.stampCommand ++ openBracket :: s) = some a
                ∧ lineFeed ∉ a.rest)
        ∧ (openBrace ∉ o →
          doc.blocks = .stamp (Stamp.canonical o f) :: more.blocks
            ∧ doc.unbalanced = more.unbalanced) := by
  have hbuiltIn := Dialect.builtIn_of_named hd
  obtain ⟨a, ha, hclosed, hplain⟩ := h.exists_closed_spread hs
  have hdoc := Document.ofText_joinLines hbuiltIn
    (List.forall_mem_append.2 ⟨fun l => lineFeed_not_mem_of_mem_lines, hlf⟩)
    (List.forall_mem_append.2 ⟨Stamp.not_infix_spread h hs, hends⟩)
  rw [joinLines_lines_append, List.append_assoc] at hdoc
  have hexact := Stamp.blocks_readLines_spread_iff hbuiltIn h hs ha hclosed (below ++ [[]])
  refine ⟨_, _, hdoc, Document.ofText_joinLines hbuiltIn hlf hends, ?_, ?_⟩
  · constructor
    · intro hkept
      exact ⟨a, ha, hexact.1 hkept⟩
    · rintro ⟨b, hb, hfree⟩
      obtain rfl := Option.some.inj (hb.symm.trans ha)
      exact hexact.2 hfree
  · intro ho
    refine hexact.2 ?_
    rw [hplain ho]
    exact List.not_mem_nil

/-- Options with a group. -/
def groupedOptions : Text := utf8 "size=\x7b2cm\x7d,page=1"

theorem arguments_groupedOptions : Stamp.Arguments groupedOptions (utf8 "seal.png") where
  nonempty := by decide +kernel
  solid := ⟨⟨by decide +kernel, by decide +kernel⟩, ⟨by decide +kernel, by decide +kernel⟩⟩
  noBackslash := by decide +kernel
  noBracket := by decide +kernel
  balanced := by decide +kernel

/-- A seal with these options on two lines, which part in the group. -/
def partedSeal : Text :=
  utf8 "size=\x7b2" ++ ([0x0A, 0x09] ++ (utf8 "cm\x7d,page=1]"
    ++ (wideSpace ++ utf8 "\x7bseal.png\x7d")))

/-- A seal with no group in its options, on two lines as well. -/
def plainSeal : Text := utf8 "page=1]" ++ ([0x0A, 0x09] ++ utf8 "\x7bseal.png\x7d")

/-- The group closes on the last line, so all of the first seal is kept; and so is all
of the second. -/
theorem blocks_partedSeal :
    (∃ doc, Document.ofText Catalogue.dialect
          (inDocument (joinLines [Stamp.stampCommand ++ openBracket :: partedSeal, utf8 "易"]))
        = .ok doc
      ∧ doc.blocks = [.stamp (utf8 "\\印章[size=\x7b2cm\x7d,page=1]\x7bseal.png\x7d"),
          .text (utf8 "易") 0]
      ∧ doc.unbalanced = 0)
      ∧ ∃ doc, Document.ofText Catalogue.dialect
            (inDocument (joinLines [Stamp.stampCommand ++ openBracket :: plainSeal, utf8 "易"]))
          = .ok doc
        ∧ doc.blocks = [.stamp (utf8 "\\印章[page=1]\x7bseal.png\x7d"), .text (utf8 "易") 0]
        ∧ doc.unbalanced = 0 := by
  have hnamed : Dialect.named (utf8 "siku-mulu") = .ok Catalogue.dialect := rfl
  have hbelow : Document.ofText Catalogue.dialect (inDocument (joinLines [utf8 "易"]))
      = .ok (.bare { blocks := [.text (utf8 "易") 0] }) := by
    decide +kernel
  have hlf : ∀ l ∈ [utf8 "易"], lineFeed ∉ l := by decide +kernel
  have hends : ∀ l ∈ [utf8 "易"], ∀ m ∈ documentEnd :: bodyEnds, ¬ m <:+: l := by decide +kernel
  have hbreak : Blanks wideSpace [0x0A, 0x09] := .space rfl (.space rfl .nil)
  have hfile := Spread.encode_append "\x7bseal.png\x7d".toList .nil
  constructor
  · have hmiddle := Spread.encode_append "cm\x7d,page=1]".toList
      (hfile.blanks_append (.wide .nil) (by decide +kernel))
    have hs : Spread (groupedOptions ++ closeBracket :: group (utf8 "seal.png")) partedSeal :=
      Spread.encode_append "size=\x7b2".toList (hmiddle.blanks_append hbreak (by decide +kernel))
    obtain ⟨doc, more, hdoc, hmore, hkept, -⟩ :=
      Document.ofText_spreadStamp hnamed arguments_groupedOptions hs hlf hends
    obtain rfl := Except.ok.inj (hmore.symm.trans hbelow)
    obtain ⟨hblocks, hunbalanced⟩ := hkept.2
      ⟨⟨utf8 "2" ++ ([0x0A, 0x09] ++ utf8 "cm"),
          utf8 ",page=1]" ++ (wideSpace ++ utf8 "\x7bseal.png\x7d"), true⟩,
        by decide +kernel, by decide +kernel⟩
    have hcanonical : Stamp.canonical groupedOptions (utf8 "seal.png")
        = utf8 "\\印章[size=\x7b2cm\x7d,page=1]\x7bseal.png\x7d" := by
      decide +kernel
    refine ⟨doc, hdoc, ?_, hunbalanced⟩
    rw [hblocks, hcanonical]
    rfl
  · have hs : Spread (utf8 "page=1" ++ closeBracket :: group (utf8 "seal.png")) plainSeal :=
      Spread.encode_append "page=1]".toList (hfile.blanks_append hbreak (by decide +kernel))
    have harguments : Stamp.Arguments (utf8 "page=1") (utf8 "seal.png") :=
      { nonempty := by decide +kernel
        solid := ⟨⟨by decide +kernel, by decide +kernel⟩, arguments_groupedOptions.solid.2⟩
        noBackslash := by decide +kernel
        noBracket := by decide +kernel
        balanced := by decide +kernel }
    obtain ⟨doc, more, hdoc, hmore, -, hplain⟩ :=
      Document.ofText_spreadStamp hnamed harguments hs hlf hends
    obtain rfl := Except.ok.inj (hmore.symm.trans hbelow)
    obtain ⟨hblocks, hunbalanced⟩ := hplain (by decide +kernel)
    have hcanonical : Stamp.canonical (utf8 "page=1") (utf8 "seal.png")
        = utf8 "\\印章[page=1]\x7bseal.png\x7d" := by
      decide +kernel
    refine ⟨doc, hdoc, ?_, hunbalanced⟩
    rw [hblocks, hcanonical]
    rfl

/-- A seal with these options on lines that part behind the group. -/
def brokenSeal : Text := utf8 "size=\x7b2cm\x7d," ++ ([0x0A] ++ utf8 "page=1]\x7bseal.png\x7d")

/-- The seal ends on the line on which the group closes, and the line below, with its
file, is read as text. -/
theorem blocks_brokenSeal :
    Stamp.Arguments groupedOptions (utf8 "seal.png")
      ∧ Spread (groupedOptions ++ closeBracket :: group (utf8 "seal.png")) brokenSeal
      ∧ ∃ doc, Document.ofText Dialect.plain
            (inDocument (joinLines [Stamp.stampCommand ++ openBracket :: brokenSeal]))
          = .ok doc
        ∧ doc.blocks = [.stamp (utf8 "\\印章[size=\x7b2cm\x7d,"),
            .text (utf8 "page=1]\x7bseal.png\x7d") 0]
        ∧ doc.blocks ≠ [.stamp (Stamp.canonical groupedOptions (utf8 "seal.png"))] := by
  have hbreak : Blanks wideSpace [0x0A] := .space rfl .nil
  have hbehind := Spread.encode_append "page=1]\x7bseal.png\x7d".toList .nil
  have hs : Spread (groupedOptions ++ closeBracket :: group (utf8 "seal.png")) brokenSeal :=
    Spread.encode_append "size=\x7b2cm\x7d,".toList
      (hbehind.blanks_append hbreak (by decide +kernel))
  refine ⟨arguments_groupedOptions, hs, .bare { blocks := [.stamp (utf8 "\\印章[size=\x7b2cm\x7d,"),
    .text (utf8 "page=1]\x7bseal.png\x7d") 0] }, ?_, rfl, ?_⟩
  · decide +kernel
  · decide +kernel

end FolioGrid
