/-
  FolioGrid.Proofs.Document.Rewriting
  ────────────────────────────────
  **REWRITTEN LINES.**

  A dialect may have a line read as another one.  The first line of a body is then
  read as if the other one stood there (`Document.ofText_rewritten`), but for the
  order in which things are done:

      white     what stands in front of the line has gone with the mark of the
                body before the dialect is asked
      comments  are passed over before the dialect is asked, so that one which
                the dialect makes is kept, as words

  Of a line that is rewritten to a seal nothing is said.
-/
import FolioGrid.Proofs.Document.Sequence
import FolioGrid.Proofs.Source.Line

namespace FolioGrid

open FolioGrid.Text FolioGrid.Markup

variable {f : Text → Option Text} {l l' line : Text} {ls below : List Text}

/-! ## §1. Lines. -/

/-- The dialect that rewrites lines and does nothing else. -/
def Dialect.rewriting (f : Text → Option Text) : Dialect := { readAs := f }

/-- A line that is not rewritten, or only as itself; a line that says nothing is
none that a dialect is asked for. -/
def LeftAlone (f : Text → Option Text) (l : Text) : Prop :=
  Line.isSilent (trim l) = false → ∀ l', f (trimRight l) = some l' → l' = trimRight l

theorem leftAlone_of_none (h : f (trimRight l) = none) : LeftAlone f l := by
  intro _ l' hl'
  rw [h] at hl'
  cases hl'

/-- A line that says something and is rewritten. -/
structure Rewrites (f : Text → Option Text) (l l' : Text) : Prop where
  /-- It is neither blank nor a comment. -/
  speaks : Line.isSilent (trim l) = false
  /-- The dialect has it read as another line. -/
  readAs : f (trimRight l) = some l'

theorem LeftAlone.read_eq (h : LeftAlone f l) (rest : List Text) :
    Line.read (.rewriting f) l rest = Line.read .plain l rest := by
  unfold Line.read
  dsimp only [Dialect.rewriting]
  rw [trim_trimRight]
  cases hsilent : Line.isSilent (trim l) with
  | true => rfl
  | false =>
    have hline : (f (trimRight l)).getD (trimRight l) = trimRight l := by
      cases hf : f (trimRight l) with
      | none => rfl
      | some l' => exact h hsilent l' hf
    rw [hline]
    rfl

/-- Nothing but a seal is read from the line itself, where the line is given as it
is to be read. -/
theorem Line.readTrimmed_congr_first (h : Stamp.isStamp line = false) (l l' : Text)
    (rest : List Text) :
    readTrimmed .plain line (l :: rest) = readTrimmed .plain line (l' :: rest) := by
  unfold readTrimmed
  simp only [h, Bool.false_eq_true, if_false]
  rfl

theorem Rewrites.read_eq (h : Rewrites f l l') (hstamp : Stamp.isStamp (trim l') = false)
    (rest : List Text) :
    Line.read (.rewriting f) l rest = Line.readTrimmed .plain (trim l') (l' :: rest) := by
  unfold Line.read
  dsimp only [Dialect.rewriting]
  rw [trim_trimRight, h.speaks, h.readAs]
  exact Line.readTrimmed_congr_first hstamp l l' rest

/-- What is rewritten to a comment is kept as words. -/
theorem Rewrites.read_of_comment (h : Rewrites f l l') (hcomment : (trim l').head? = some percent)
    (rest : List Text) :
    Line.read (.rewriting f) l rest = .ofText (clean (trim l')) := by
  have hstamp : Stamp.isStamp (trim l') = false := by
    obtain ⟨t, ht⟩ := List.head?_eq_some_iff.1 hcomment
    rw [ht]
    rfl
  rw [h.read_eq hstamp, Line.readTrimmed_words hcomment (by decide)]

/-- What is rewritten to any other line is read as that line. -/
theorem Rewrites.read_of_not_comment (h : Rewrites f l l')
    (hstamp : Stamp.isStamp (trim l') = false) (hcomment : (trim l').head? ≠ some percent)
    (rest : List Text) : Line.read (.rewriting f) l rest = Line.read .plain l' rest := by
  rw [h.read_eq hstamp, Line.read_eq .plain]
  by_cases hblank : trim l' = []
  · rw [hblank]
    rfl
  · have hspeaks : Line.isSilent (trim l') = false := by
      unfold Line.isSilent
      simp [hblank, hcomment]
    rw [hspeaks]
    rfl

/-! ## §2. Bodies. -/

theorem readLines_of_leftAlone (h : ∀ l ∈ ls, LeftAlone f l) :
    readLines (.rewriting f) ls = readLines .plain ls := by
  induction ls using readLines.induct .plain with
  | case1 => rw [readLines_nil, readLines_nil]
  | case2 first rest r ih =>
    have hread : Line.read (.rewriting f) first rest = r :=
      (h first List.mem_cons_self).read_eq rest
    rw [readLines_cons, readLines_cons, hread]
    refine congrArg (r ++ ·) (ih fun l hl => h l ?_)
    exact List.mem_cons_of_mem first (List.mem_of_mem_drop hl)

/-- Below a rewritten line that is no comment, reading goes on where it does below
the line that it is read as. -/
theorem Rewrites.readLines_of_not_comment (h : Rewrites f l l')
    (hstamp : Stamp.isStamp (trim l') = false) (hcomment : (trim l').head? ≠ some percent)
    (halone : ∀ l ∈ ls, LeftAlone f l) :
    readLines (.rewriting f) (l :: ls) = readLines .plain (l' :: ls) := by
  rw [readLines_cons, readLines_cons, h.read_of_not_comment hstamp hcomment]
  refine congrArg (Line.read .plain l' ls ++ ·) (readLines_of_leftAlone fun l hl => ?_)
  exact halone l (List.mem_of_mem_drop hl)

/-- A comment that a line is rewritten to is kept in front of what stands below. -/
theorem Rewrites.readLines_of_comment (h : Rewrites f l l')
    (hcomment : (trim l').head? = some percent) (halone : ∀ l ∈ ls, LeftAlone f l) :
    readLines (.rewriting f) (l :: ls)
      = .ofText (clean (trim l')) ++ readLines .plain (l' :: ls) := by
  have hsilent : Line.read .plain l' ls = Reading.empty := by
    rw [Line.read_eq .plain, if_pos]
    unfold Line.isSilent
    simp [hcomment]
  rw [readLines_cons, readLines_cons, h.read_of_comment hcomment, hsilent, Reading.empty_append]
  exact congrArg (Reading.ofText _ ++ ·) (readLines_of_leftAlone halone)

/-! ## §3. Documents. -/

/-- A bare document in a dialect that only rewrites: the white in front of its first
line goes with the mark of its body. -/
theorem Document.ofText_rewriting (hl : trim l ≠ []) (hlf : ∀ m ∈ l :: below, lineFeed ∉ m)
    (hends : ∀ m ∈ l :: below, ∀ e ∈ documentEnd :: bodyEnds, ¬ e <:+: m) :
    Document.ofText (.rewriting f) (inDocument (joinLines (l :: below)))
      = .ok (.bare (readLines (.rewriting f) (l.dropWhile isSpace :: (below ++ [[]])))) := by
  have hdrop : l.dropWhile isSpace ≠ [] := by
    intro hnil
    rw [← trim_dropWhile_isSpace, hnil] at hl
    exact hl rfl
  have hlf' : ∀ m ∈ l.dropWhile isSpace :: below, lineFeed ∉ m := by
    rw [List.forall_mem_cons] at hlf ⊢
    exact ⟨fun h => hlf.1 ((List.dropWhile_sublist _).mem h), hlf.2⟩
  have hlines : lines ((joinLines (l :: below) ++ [lineFeed]).dropWhile isSpace)
      = l.dropWhile isSpace :: (below ++ [[]]) := by
    obtain ⟨t, ht⟩ := exists_joinLines_cons below
    rw [ht, List.append_assoc, List.dropWhile_append, if_neg (by simpa using hdrop),
      ← List.append_assoc, ← ht, lines_joinLines_concat (List.cons_ne_nil _ _) hlf']
    rfl
  rw [Document.ofText_inDocument _ (not_infix_joinLines hends), hlines]
  rfl

/-- A line of words in front of a body adds them to its bare document. -/
theorem Document.bare_ofText_append (t : Text) (r : Reading) :
    Document.bare (.ofText t ++ r)
      = { Document.bare r with blocks := (Reading.ofText t).blocks ++ r.blocks } := by
  show Document.bare (Reading.append (.ofText t) r) = _
  unfold Document.bare Reading.append Reading.ofText
  simp only [Nat.zero_add, List.nil_append]

/-- **A rewritten line is read as the line that it is rewritten to.** In a dialect that
does nothing but rewrite lines, let the first line of a body be neither blank nor a
comment, let the dialect have it read as `l'`, which is no seal, and let it leave
the lines below alone.  Then the document is that of the plain dialect with `l'` in
the place of the line; but if `l'` is a comment, it is kept as words in front. -/
theorem Document.ofText_rewritten (hspeaks : Line.isSilent (trim l) = false)
    (hreadAs : f (trimRight (l.dropWhile isSpace)) = some l')
    (hstamp : Stamp.isStamp (trim l') = false) (halone : ∀ m ∈ below, LeftAlone f m)
    (hlf : ∀ m ∈ l :: l' :: below, lineFeed ∉ m)
    (hends : ∀ m ∈ l :: l' :: below, ∀ e ∈ documentEnd :: bodyEnds, ¬ e <:+: m) :
    ∃ doc doc', Document.ofText (.rewriting f) (inDocument (joinLines (l :: below))) = .ok doc
      ∧ Document.ofText .plain (inDocument (joinLines (l' :: below))) = .ok doc'
      ∧ ((trim l').head? ≠ some percent → doc = doc')
      ∧ ((trim l').head? = some percent →
        doc = { doc' with blocks := (Reading.ofText (clean (trim l'))).blocks ++ doc'.blocks }) := by
  obtain ⟨hlf_l, hlf'⟩ := List.forall_mem_cons.1 hlf
  obtain ⟨hends_l, hends'⟩ := List.forall_mem_cons.1 hends
  have hlf_below := (List.forall_mem_cons.1 hlf').2
  have hends_below := (List.forall_mem_cons.1 hends').2
  have hblank : trim l ≠ [] := by
    intro hnil
    rw [hnil] at hspeaks
    cases hspeaks
  have hrewrites : Rewrites f (l.dropWhile isSpace) l' :=
    ⟨by rw [trim_dropWhile_isSpace, hspeaks], hreadAs⟩
  have halone' : ∀ m ∈ below ++ [[]], LeftAlone f m := by
    rw [List.forall_mem_append, List.forall_mem_singleton]
    refine ⟨halone, fun hempty => ?_⟩
    cases hempty
  refine ⟨_, _, Document.ofText_rewriting hblank (List.forall_mem_cons.2 ⟨hlf_l, hlf_below⟩)
    (List.forall_mem_cons.2 ⟨hends_l, hends_below⟩),
    Document.ofText_joinLines .plain hlf' hends', ?_, ?_⟩
  · intro hcomment
    rw [hrewrites.readLines_of_not_comment hstamp hcomment halone']
    rfl
  · intro hcomment
    rw [hrewrites.readLines_of_comment hcomment halone']
    exact Document.bare_ofText_append _ _

/-- What starts with `p` starts with `q` instead. -/
def rewriteHead (p q t : Text) : Option Text := (after? p t).map (q ++ ·)

/-- A line that opens a paragraph, spelled in another way. -/
def shortenedLines : List Text := [utf8 "  〔段〕[indent=2]", utf8 "易", utf8 "\\end\x7b段落\x7d"]

theorem ofText_shortenedLines :
    Document.ofText (.rewriting (rewriteHead (utf8 "〔段〕") (utf8 "\\begin\x7b段落\x7d")))
        (inDocument (joinLines shortenedLines))
      = .ok (.bare { blocks := [.paragraph ⟨utf8 "易", 2, 2⟩] }) := by
  have hreadAs : rewriteHead (utf8 "〔段〕") (utf8 "\\begin\x7b段落\x7d")
        (trimRight ((utf8 "  〔段〕[indent=2]").dropWhile isSpace))
      = some (utf8 "\\begin\x7b段落\x7d[indent=2]") := by
    decide +kernel
  have hbelow : ∀ m ∈ [utf8 "易", utf8 "\\end\x7b段落\x7d"],
      rewriteHead (utf8 "〔段〕") (utf8 "\\begin\x7b段落\x7d") (trimRight m) = none := by
    decide +kernel
  obtain ⟨doc, doc', hdoc, hdoc', hsame, -⟩ := Document.ofText_rewritten (by decide +kernel)
    hreadAs (by decide +kernel) (fun m hm => leftAlone_of_none (hbelow m hm))
    (by decide +kernel) (by decide +kernel)
  rw [shortenedLines, hdoc, hsame (by decide +kernel), ← hdoc']
  decide +kernel

/-- What a document says of its body, without the reports. -/
def Document.said (doc : Document) : List Block × Nat × Nat :=
  (doc.blocks, doc.unbalanced, doc.unrecognized)

/-- That a body with a rewritten line in front would say what it says with the other
line there. -/
def Transparent (f : Text → Option Text) (l l' : Text) (below : List Text) : Prop :=
  Line.isSilent (trim l) = false → f (trimRight l) = some l' →
    (∀ m ∈ below, LeftAlone f m) → (∀ m ∈ l :: l' :: below, lineFeed ∉ m) →
    (∀ m ∈ l :: l' :: below, ∀ e ∈ [documentBegin, documentEnd] ++ bodyBegins ++ bodyEnds,
      ¬ e <:+: m) →
    (Document.ofText (.rewriting f) (inDocument (joinLines (l :: below)))).map Document.said
      = (Document.ofText .plain (inDocument (joinLines (l' :: below)))).map Document.said

/-- **Not every rewriting is transparent**: not one to a comment, not one that asks
for white in front of the line, and not one to a seal. -/
theorem not_transparent :
    ¬ Transparent (rewriteHead (utf8 "舊") (utf8 "%舊")) (utf8 "舊") (utf8 "%舊") []
      ∧ ¬ Transparent (rewriteHead (utf8 "  甲") (utf8 "\\chapter\x7b乙\x7d")) (utf8 "  甲")
        (utf8 "\\chapter\x7b乙\x7d") []
      ∧ ¬ Transparent (rewriteHead (utf8 "舊印") (utf8 "\\印章[x]\x7b甲\x7d")) (utf8 "舊印")
        (utf8 "\\印章[x]\x7b甲\x7d") [] := by
  refine ⟨fun h => ?_, fun h => ?_, fun h => ?_⟩
  all_goals
    exact absurd (h (by decide +kernel) (by decide +kernel) (List.forall_mem_nil _)
      (by decide +kernel) (by decide +kernel)) (by decide +kernel)

end FolioGrid
