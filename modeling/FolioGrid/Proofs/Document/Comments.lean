/-
  FolioGrid.Proofs.Document.Comments
  ────────────────────────────────
  **COMMENTS INSIDE PARAGRAPHS.**

  What stands behind a percent sign on an inner line of a paragraph adds nothing to the
  paragraph.  But the mark of the paragraph's end is looked for before comments are cut,
  so it ends the paragraph in a comment as elsewhere.  Two comments in one place
  (`Document.Inside`) make no difference to a document unless one of them holds that mark
  and the other does not: `Document.ofText_comment`.

      exists_bodyLines_commented — a comment stays on its line in a body
      Paragraph.lineText_comment — it adds nothing to a paragraph
      Paragraph.enclosed_comment — what a paragraph sees of it
-/
import FolioGrid.Proofs.Document.Sequence
import FolioGrid.Proofs.Reading.Reaching
import FolioGrid.Proofs.Source.Paragraph

namespace FolioGrid

open FolioGrid.Text FolioGrid.Markup

variable {d : Dialect} {s t u x y z : Text} {ms : List Text} {a : UInt8}

/-! ## §1. Marks around a comment. -/

/-- Where no mark stands, nothing is erased. -/
theorem eraseMark_append_cons (hsep : ∀ m ∈ ms, a ∉ m) (h : ∀ m ∈ ms, ¬ m <:+: t) (u : Text) :
    eraseMark ms (t ++ a :: u) = t ++ a :: eraseMark ms u := by
  unfold eraseMark
  rw [cutAny?_append_cons hsep h]
  cases cutAny? ms u with
  | none => rfl
  | some c => simp

/-- A mark is erased in front of a separator or behind it, the white behind the mark up to
the separator. -/
theorem eraseMark_append_cons_or (hsep : ∀ m ∈ ms, a ∉ m) (ha : isSpace a = false) (t : Text) :
    (∀ u, eraseMark ms (t ++ a :: u) = eraseMark ms t ++ a :: u)
      ∨ ∀ u, eraseMark ms (t ++ a :: u) = eraseMark ms t ++ a :: eraseMark ms u := by
  cases hcut : cutAny? ms t with
  | some c =>
    refine Or.inl fun u => ?_
    unfold eraseMark
    rw [cutAny?_append_cons_of_some hsep hcut, hcut]
    simp only [List.append_assoc]
    rw [List.dropWhile_append]
    split
    · next hblank =>
      rw [List.isEmpty_iff.1 hblank, List.dropWhile_cons_of_neg (by simp [ha])]
      rfl
    · rfl
  | none =>
    refine Or.inr fun u => ?_
    rw [eraseMark_append_cons hsep (cutAny?_eq_none_iff.1 hcut)]
    unfold eraseMark
    rw [hcut]

/-- What may follow a percent sign up to the end of its line: anything but the marks that
divide a document. -/
structure Comment (z : Text) : Prop where
  /-- It is on one line. -/
  line : lineFeed ∉ z
  /-- It holds no mark of an end, of a document or of a body, and none of a body's begin. -/
  marks : ∀ m ∈ documentEnd :: (bodyBegins ++ bodyEnds), ¬ m <:+: z

theorem Comment.not_documentEnd (h : Comment z) : ¬ documentEnd <:+: z :=
  h.marks _ List.mem_cons_self

theorem Comment.not_bodyBegins (h : Comment z) : ∀ m ∈ bodyBegins, ¬ m <:+: z :=
  fun m hm => h.marks m (List.mem_cons_of_mem _ (List.mem_append_left _ hm))

theorem Comment.not_bodyEnds (h : Comment z) : ∀ m ∈ bodyEnds, ¬ m <:+: z :=
  fun m hm => h.marks m (List.mem_cons_of_mem _ (List.mem_append_right _ hm))

/-- A text, a comment on its last line, and further lines. -/
def commented (t z u : Text) : Text := t ++ percent :: (z ++ lineFeed :: u)

/-- A comment is no part of what is erased around it. -/
theorem exists_eraseMark_commented (hsep : ∀ m ∈ ms, percent ∉ m ∧ lineFeed ∉ m) (t u : Text) :
    ∃ u', ∀ z, (∀ m ∈ ms, ¬ m <:+: z) →
      eraseMark ms (commented t z u) = commented (eraseMark ms t) z u' := by
  rcases eraseMark_append_cons_or (fun m hm => (hsep m hm).1) (by decide) t with h | h
  · exact ⟨u, fun z _ => h _⟩
  · refine ⟨eraseMark ms u, fun z hz => ?_⟩
    unfold commented
    rw [h, eraseMark_append_cons (fun m hm => (hsep m hm).2) hz]

/-- **A comment stays on its line**, and what stands below does not depend on it. -/
theorem exists_bodyLines_commented {above : List Text} (h : bodyLines s = above ++ [t])
    (u : Text) :
    ∃ below, ∀ z, Comment z →
      bodyLines (commented s z u) = above ++ (t ++ percent :: z) :: below := by
  have hbegins : ∀ m ∈ bodyBegins, percent ∉ m ∧ lineFeed ∉ m := by decide
  have hends : ∀ m ∈ bodyEnds, percent ∉ m ∧ lineFeed ∉ m := by decide
  obtain ⟨v, hv⟩ := exists_eraseMark_commented hbegins s u
  obtain ⟨w, hw⟩ := exists_eraseMark_commented hends (eraseMark bodyBegins s) v
  obtain ⟨above', last, hlines, hlonger⟩ :=
    exists_last_line (eraseMark bodyEnds (eraseMark bodyBegins s))
  obtain ⟨rfl, hlast⟩ := List.append_inj' (hlines.symm.trans h) rfl
  obtain rfl := List.singleton_inj.1 hlast
  refine ⟨lines w, fun z hz => ?_⟩
  have hline : lineFeed ∉ percent :: z := by
    rw [List.mem_cons, not_or]
    exact ⟨by decide, hz.line⟩
  unfold bodyLines
  rw [hv z hz.not_bodyBegins, hw z hz.not_bodyEnds]
  unfold commented
  rw [← List.cons_append, ← List.append_assoc, lines_append_cons, hlonger _ hline,
    List.append_assoc, List.singleton_append]

/-- A comment is in a body that starts above it, or in none. -/
theorem splitBody_commented (s u : Text) :
    (∀ z, Comment z → (splitBody (commented s z u)).2 = commented (splitBody s).2 z u)
      ∨ ∃ body, ∀ z, Comment z → (splitBody (commented s z u)).2 = body := by
  have hpercent : ∀ m ∈ bodyBegins, percent ∉ m := by decide
  have hlineFeed : ∀ m ∈ bodyBegins, lineFeed ∉ m := by decide
  unfold splitBody commented
  cases hcut : cutAny? bodyBegins s with
  | some c =>
    refine Or.inl fun z _ => ?_
    rw [cutAny?_append_cons_of_some hpercent hcut]
    simp
  | none =>
    have hs := cutAny?_eq_none_iff.1 hcut
    cases hbelow : cutAny? bodyBegins u with
    | none =>
      refine Or.inl fun z hz => ?_
      rw [cutAny?_append_cons hpercent hs, cutAny?_append_cons hlineFeed hz.not_bodyBegins, hbelow]
      rfl
    | some c =>
      refine Or.inr ⟨c.found ++ c.after, fun z hz => ?_⟩
      rw [cutAny?_append_cons hpercent hs, cutAny?_append_cons hlineFeed hz.not_bodyBegins, hbelow]
      rfl

/-! ## §2. Comments in paragraphs. -/

namespace Paragraph

variable {first o : Text} {inner below : List Text}

/-- A comment begins at the first percent sign, if no backslash stands in front of it. -/
theorem beforeComment_append_cons (hpercent : percent ∉ t) (hlast : t.getLast? ≠ some backslash)
    {escaped : Bool} (hescaped : escaped = true → t ≠ []) (u : Text) :
    beforeComment escaped (t ++ percent :: u) = t := by
  induction t generalizing escaped with
  | nil =>
    cases escaped with
    | false => rfl
    | true => exact absurd rfl (hescaped rfl)
  | cons b t ih =>
    rw [List.mem_cons, not_or] at hpercent
    have hb : ¬ (b = percent && !escaped) = true := by
      simp [Ne.symm hpercent.1]
    have hnext : t.getLast? ≠ some backslash := by
      intro h
      rw [List.getLast?_cons, h] at hlast
      exact hlast rfl
    have hescapes : decide (b = backslash) = true → t ≠ [] := by
      rintro hbackslash rfl
      exact hlast (congrArg some (of_decide_eq_true hbackslash))
    rw [List.cons_append]
    unfold beforeComment
    rw [if_neg hb, ih hpercent.2 hnext hescapes]

/-- **A comment adds nothing** to what stands in front of it. -/
theorem lineText_comment (hpercent : percent ∉ t) (hlast : t.getLast? ≠ some backslash)
    (u : Text) : lineText (t ++ percent :: u) = trimRight (trimLeft t) := by
  have htrim : trim (t ++ percent :: u) = trimLeft t ++ percent :: trimRight u := by
    unfold trim
    rw [trimRight_append_cons (by decide) (by decide)]
    exact dropBlanks_append_cons (by decide) (by decide) t (trimRight u)
  obtain ⟨v, -, hv⟩ := exists_blanks_dropBlanks wideSpace t
  have hleft : v ++ trimLeft t = t := hv
  unfold lineText
  rw [htrim, beforeComment_append_cons ?_ ?_ (fun h => Bool.noConfusion h)]
  · intro hmem
    rw [← hleft] at hpercent
    exact hpercent (List.mem_append_right v hmem)
  · intro h
    rw [← hleft, List.getLast?_append, h] at hlast
    exact hlast rfl

/-- Lines without the mark of the end are enclosed with those below. -/
theorem enclosed_append_of_open {ls : List Text} (h : ∀ l ∈ ls, ¬ closing <:+: l)
    (below : List Text) :
    enclosed (ls ++ below)
      = ⟨ls ++ (enclosed below).inner, ls.length + (enclosed below).taken,
          (enclosed below).closed⟩ := by
  induction ls with
  | nil => simp
  | cons l ls ih =>
    rw [List.forall_mem_cons] at h
    rw [List.cons_append, enclosed_cons_of_none (cut?_eq_none_iff.2 h.1), ih h.2]
    simp only [List.cons_append, List.length_cons, Nat.add_right_comm]

/-- A paragraph takes a line, if one is there. -/
theorem taken_enclosed_pos (l : Text) (ls : List Text) : 0 < (enclosed (l :: ls)).taken := by
  cases hcut : cut? closing l with
  | some c => rw [enclosed_cons_of_some hcut]; exact Nat.one_pos
  | none => rw [enclosed_cons_of_none hcut]; exact Nat.succ_pos _

/-- **What a paragraph sees of a comment** is whether it holds the mark of the end, where
that does not stand in front of the comment already. -/
theorem enclosed_comment (hpercent : percent ∉ t) (hlast : t.getLast? ≠ some backslash)
    (hclosing : closing <:+: t ∨ (closing <:+: x ↔ closing <:+: y)) (below : List Text) :
    (enclosed ((t ++ percent :: x) :: below)).inner.flatMap lineText
        = (enclosed ((t ++ percent :: y) :: below)).inner.flatMap lineText
      ∧ (enclosed ((t ++ percent :: x) :: below)).taken
        = (enclosed ((t ++ percent :: y) :: below)).taken
      ∧ (enclosed ((t ++ percent :: x) :: below)).closed
        = (enclosed ((t ++ percent :: y) :: below)).closed := by
  have hmark : ∀ m ∈ [closing], percent ∉ m := by decide
  have hwords : ∀ u v : Text, lineText (t ++ percent :: u) = lineText (t ++ percent :: v) := by
    intro u v
    rw [lineText_comment hpercent hlast, lineText_comment hpercent hlast]
  cases hcut : cut? closing t with
  | some c =>
    have hfound : ∀ z, cut? closing (t ++ percent :: z)
        = some { c with after := c.after ++ percent :: z } :=
      cutAny?_append_cons_of_some hmark hcut
    rw [enclosed_cons_of_some (hfound x), enclosed_cons_of_some (hfound y)]
    exact ⟨rfl, rfl, rfl⟩
  | none =>
    have ht := cut?_eq_none_iff.1 hcut
    have hstep : ∀ z, cut? closing (t ++ percent :: z) = (cut? closing z).map fun c =>
        { c with before := t ++ percent :: c.before } :=
      fun z => cutAny?_append_cons hmark fun m hm => by rwa [List.mem_singleton.1 hm]
    have hboth := not_congr (hclosing.resolve_left ht)
    rw [← cut?_eq_none_iff, ← cut?_eq_none_iff] at hboth
    cases hx : cut? closing x with
    | none =>
      have hy := hboth.1 hx
      rw [enclosed_cons_of_none (by rw [hstep, hx]; rfl),
        enclosed_cons_of_none (by rw [hstep, hy]; rfl)]
      exact ⟨by rw [List.flatMap_cons, List.flatMap_cons, hwords x y], rfl, rfl⟩
    | some cx =>
      obtain ⟨cy, hy⟩ : ∃ cy, cut? closing y = some cy := by
        refine Option.ne_none_iff_exists'.1 fun hy => ?_
        rw [hboth.2 hy] at hx
        cases hx
      rw [enclosed_cons_of_some (by rw [hstep, hx]; rfl),
        enclosed_cons_of_some (by rw [hstep, hy]; rfl)]
      refine ⟨?_, rfl, rfl⟩
      rw [List.flatMap_singleton, List.flatMap_singleton, hwords]

/-- What is left below a paragraph, counted from an inner line. -/
theorem drop_taken_read (hopen : ∀ l ∈ skipOption o :: inner, ¬ closing <:+: l) (l : Text)
    (below : List Text) :
    (inner ++ l :: below).drop ((read o (inner ++ l :: below)).taken - 1)
      = below.drop ((enclosed (l :: below)).taken - 1) := by
  have hlines : (read o (inner ++ l :: below)).lines
      = inner.length + 1 + (enclosed (l :: below)).taken := by
    show (enclosed (skipOption o :: inner ++ l :: below)).taken = _
    rw [enclosed_append_of_open hopen, List.length_cons]
  have hpos := taken_enclosed_pos l below
  have htaken : (read o (inner ++ l :: below)).taken - 1
      = (inner ++ [l]).length + ((enclosed (l :: below)).taken - 1) := by
    unfold Reading.taken
    rw [hlines, List.length_append, List.length_singleton]
    omega
  rw [htaken, List.append_cons inner l below, List.drop_length_add_append]

/-- Two comments on an inner line of a paragraph are read alike, and so is what stands
below the paragraph. -/
theorem readLines_comment (hd : d.BuiltIn) (hfirst : trim first = opening ++ o)
    (hopen : ∀ l ∈ skipOption o :: inner, ¬ closing <:+: l)
    (hpercent : percent ∉ t) (hlast : t.getLast? ≠ some backslash)
    (hclosing : closing <:+: t ∨ (closing <:+: x ↔ closing <:+: y)) (below : List Text) :
    readLines d (first :: inner ++ (t ++ percent :: x) :: below)
      = readLines d (first :: inner ++ (t ++ percent :: y) :: below) := by
  obtain ⟨hwords, htaken, hclosed⟩ := enclosed_comment hpercent hlast hclosing below
  have hread : read o (inner ++ (t ++ percent :: x) :: below)
      = read o (inner ++ (t ++ percent :: y) :: below) := by
    unfold read
    rw [← List.cons_append, ← List.cons_append, enclosed_append_of_open hopen,
      enclosed_append_of_open hopen]
    simp only [List.flatMap_append, hwords, htaken, hclosed]
  rw [List.cons_append, List.cons_append, readLines_cons, readLines_cons,
    read_of_trim hd hfirst, read_of_trim hd hfirst, drop_taken_read hopen, drop_taken_read hopen,
    hread, htaken]

end Paragraph

/-! ## §3. Documents. -/

namespace Document

/-- The first part of a document's text ends on an inner line of a paragraph: `t` is what
stands there of the line. -/
inductive Inside (d : Dialect) (t before : Text) : Prop where
  /-- The document has begun and not ended, and the lines above are read up to a line that
  opens a paragraph, which has not been closed. -/
  | intro {c : Cut} {above inner : List Text} {first o : Text}
      (hbegin : cut? documentBegin before = some c) (hend : ¬ documentEnd <:+: before)
      (hlines : bodyLines (splitBody c.after).2 = above ++ [t])
      (hreach : Reaches d above (first :: inner))
      (hfirst : trim first = Paragraph.opening ++ o)
      (hopen : ∀ l ∈ skipOption o :: inner, ¬ Paragraph.closing <:+: l)

/-- The parts of a document do not depend on a comment in it, but for the front matter and
the body in one of which it stands. -/
theorem parts_commented {before after : Text} {b e : Cut}
    (hbegin : cut? documentBegin before = some b) (hend : ¬ documentEnd <:+: before)
    (hafter : cut? documentEnd after = some e) (hz : Comment z) :
    Parts.ofText (commented before z after)
      = .ok ⟨b.before ++ b.found, (splitBody (commented b.after z e.before)).1,
          (splitBody (commented b.after z e.before)).2, e.found ++ e.after⟩ := by
  have hb : cut? documentBegin (commented before z after)
      = some { b with after := commented b.after z after } :=
    Offsets.cut?_append_of_some hbegin
  have he : cut? documentEnd (commented before z after)
      = some { e with before := commented before z e.before } := by
    unfold commented
    have hafter' : cutAny? [documentEnd] after = some e := hafter
    have hz' : ∀ m ∈ [documentEnd], ¬ m <:+: z :=
      fun m hm => by rw [List.mem_singleton.1 hm]; exact hz.not_documentEnd
    have hbefore : ∀ m ∈ [documentEnd], ¬ m <:+: before :=
      fun m hm => by rwa [List.mem_singleton.1 hm]
    show cutAny? [documentEnd] _ = _
    rw [cutAny?_append_cons (by decide) hbefore, cutAny?_append_cons (by decide) hz', hafter']
    rfl
  have hwhole := append_of_cutAny? hbegin
  have hinner : commented before z e.before
      = (b.before ++ b.found) ++ commented b.after z e.before := by
    unfold commented
    rw [← hwhole]
    simp only [List.append_assoc]
  unfold Parts.ofText
  rw [hb, he]
  dsimp only
  rw [hinner, List.drop_left, if_neg]
  rw [List.append_assoc, List.length_append]
  omega

/-- **A comment in a paragraph makes no difference, but for the mark of the end.**  In a
dialect that has a name, take a document with a comment on any inner line of a paragraph,
behind words `t` without a percent sign and without a backslash at their end.  With any
other comment in its place, the document says the same and the same damage is met, if the
mark of the paragraph's end stands in both comments or in neither, or in front of them. -/
theorem ofText_comment {name before after : Text} (hd : Dialect.named name = .ok d)
    (hinside : Inside d t before) (hpercent : percent ∉ t)
    (hlast : t.getLast? ≠ some backslash) (hx : Comment x) (hy : Comment y)
    (hafter : documentEnd <:+: after)
    (hclosing : Paragraph.closing <:+: t
      ∨ (Paragraph.closing <:+: x ↔ Paragraph.closing <:+: y)) :
    ∃ doc doc', Document.ofText d (commented before x after) = .ok doc
      ∧ Document.ofText d (commented before y after) = .ok doc'
      ∧ doc.blocks = doc'.blocks ∧ doc.unbalanced = doc'.unbalanced
      ∧ doc.unrecognized = doc'.unrecognized ∧ doc.notices = doc'.notices := by
  have hbuiltIn := Dialect.builtIn_of_named hd
  obtain @⟨b, above, inner, first, o, hbegin, hend, hlines, hreach, hfirst, hopen⟩ := hinside
  obtain ⟨e, he⟩ : ∃ e, cut? documentEnd after = some e :=
    Option.ne_none_iff_exists'.1 fun hnone => cut?_eq_none_iff.1 hnone hafter
  have hread : readLines d (bodyLines (splitBody (commented b.after x e.before)).2)
      = readLines d (bodyLines (splitBody (commented b.after y e.before)).2) := by
    rcases splitBody_commented b.after e.before with hin | ⟨body, hout⟩
    · obtain ⟨below, hbelow⟩ := exists_bodyLines_commented hlines e.before
      obtain ⟨r, hr⟩ := hreach.exists_readLines hbuiltIn (List.cons_ne_nil first inner)
      rw [hin x hx, hin y hy, hbelow x hx, hbelow y hy, hr, hr,
        Paragraph.readLines_comment hbuiltIn hfirst hopen hpercent hlast hclosing]
    · rw [hout x hx, hout y hy]
  refine ⟨_, _, Document.ofText_eq_ok_iff.2 ⟨_, parts_commented hbegin hend he hx, rfl⟩,
    Document.ofText_eq_ok_iff.2 ⟨_, parts_commented hbegin hend he hy, rfl⟩, ?_⟩
  exact ⟨congrArg (fun r : Reading => d.finish r.blocks) hread, congrArg Reading.unbalanced hread,
    congrArg Reading.unrecognized hread, congrArg Reading.notices hread⟩

end Document

/-- A document up to a line of its paragraph. -/
def openParagraph : Text :=
  utf8 "\\begin\x7bdocument\x7d\n\\begin\x7b正文\x7d\n易\n\\begin\x7b段落\x7d[indent=2]\n甲"

/-- What stands below that line. -/
def belowParagraph : Text :=
  utf8 "乙\n\\end\x7b段落\x7d\n\\end\x7b正文\x7d\n\\end\x7bdocument\x7d"

theorem inside_openParagraph : Document.Inside .plain (utf8 "甲") openParagraph := by
  have hread : ([utf8 "\\begin\x7b段落\x7d[indent=2]"] : List Text).drop
      ((Line.read .plain (utf8 "易") [utf8 "\\begin\x7b段落\x7d[indent=2]"]).taken - 1)
        = [utf8 "\\begin\x7b段落\x7d[indent=2]"] := by
    decide +kernel
  have hbegin : cut? documentBegin openParagraph
      = some ⟨[], documentBegin, openParagraph.drop documentBegin.length⟩ := by
    decide +kernel
  have hlines : bodyLines (splitBody (openParagraph.drop documentBegin.length)).2
      = [utf8 "易", utf8 "\\begin\x7b段落\x7d[indent=2]"] ++ [utf8 "甲"] := by
    decide +kernel
  have hfirst : trim (utf8 "\\begin\x7b段落\x7d[indent=2]")
      = Paragraph.opening ++ utf8 "[indent=2]" := by
    decide +kernel
  exact .intro hbegin (by decide +kernel) hlines (hread ▸ Reaches.all.next) hfirst
    (by decide +kernel)

/-- A comment that holds a command and an open brace says nothing. -/
theorem blocks_openParagraph :
    ∃ doc doc',
      Document.ofText .plain (commented openParagraph (utf8 " \\注\x7b") belowParagraph) = .ok doc
        ∧ Document.ofText .plain (commented openParagraph [] belowParagraph) = .ok doc'
        ∧ doc.blocks = doc'.blocks ∧ doc.unbalanced = doc'.unbalanced
        ∧ doc.unrecognized = doc'.unrecognized ∧ doc.notices = doc'.notices :=
  Document.ofText_comment (rfl : Dialect.named [] = .ok .plain) inside_openParagraph
    (by decide) (by decide) ⟨by decide, by decide +kernel⟩ ⟨by decide, by decide +kernel⟩
    (by decide +kernel) (by decide +kernel)

/-- One that holds the mark of the end ends the paragraph. -/
theorem blocks_closedByComment :
    ∃ doc doc',
      Document.ofText .plain
          (commented openParagraph (utf8 " \\end\x7b段落\x7d") belowParagraph) = .ok doc
        ∧ Document.ofText .plain (commented openParagraph [] belowParagraph) = .ok doc'
        ∧ doc.blocks = [.text (utf8 "易") 0, .paragraph ⟨utf8 "甲", 2, 2⟩, .text (utf8 "乙") 0,
            .text (utf8 "\\end\x7b段落\x7d") 0]
        ∧ doc.unrecognized = 1
        ∧ doc'.blocks = [.text (utf8 "易") 0, .paragraph ⟨utf8 "甲乙", 2, 2⟩]
        ∧ doc'.unrecognized = 0 := by
  refine ⟨.bare { blocks := [.text (utf8 "易") 0, .paragraph ⟨utf8 "甲", 2, 2⟩,
      .text (utf8 "乙") 0, .text (utf8 "\\end\x7b段落\x7d") 0], unrecognized := 1 },
    .bare { blocks := [.text (utf8 "易") 0, .paragraph ⟨utf8 "甲乙", 2, 2⟩] },
    ?_, ?_, rfl, rfl, rfl, rfl⟩
  · decide +kernel
  · decide +kernel

end FolioGrid
