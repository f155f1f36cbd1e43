/-
  FolioGrid.Proofs.Offsets.Document
  ────────────────────────────────
  **DOCUMENTS BY OFFSETS.**

  A document is divided at the offsets of its marks.  Between the first mark of its
  begin and the first one of its end the body is cut out, and the two marks cannot
  overlap: so the end does not lie in front of where the body starts.
-/
import FolioGrid.Proofs.Document.Parts
import FolioGrid.Proofs.Document.Splitting
import FolioGrid.Proofs.Offsets.Body

namespace FolioGrid.Offsets

open FolioGrid.Text FolioGrid.Markup

variable {t : Text} {marks : List Text}

/-! ## §1. The earliest of some marks. -/

/-- A place where a mark stands: its offset, and the mark. -/
abbrev Place := Nat × Text

/-- The nearer one of two places, either of which may be none; the first one if both are equally
near. -/
def nearer : Option Place → Option Place → Option Place
  | some a, some b => if b.1 < a.1 then some b else some a
  | none, b => b
  | a, none => a

/-- The first place at which one of some marks stands, if no nearer one is known. -/
def earliest (t : Text) (best : Option Place) : List Text → Option Place
  | [] => best
  | m :: ms => earliest t (nearer best ((find? m t 0).map fun i => (i, m))) ms

/-- The place of a cut. -/
def placeOf (c : Cut) : Place := (c.before.length, c.found)

/-- A place is nearer than none. -/
theorem nearer_none (a : Option Place) : nearer a none = a := by cases a <;> rfl

/-- Of several places the nearest is the same, however they are compared. -/
theorem nearer_assoc (a b c : Option Place) : nearer (nearer a b) c = nearer a (nearer b c) := by
  cases a with
  | none => rfl
  | some a =>
    cases b with
    | none => rfl
    | some b =>
      cases c with
      | none => rw [nearer_none, nearer_none]
      | some c =>
        by_cases hba : b.1 < a.1
        · by_cases hcb : c.1 < b.1
          · have hca : c.1 < a.1 := Nat.lt_trans hcb hba
            simp [nearer, hba, hcb, hca]
          · simp [nearer, hba, hcb]
        · by_cases hcb : c.1 < b.1
          · simp [nearer, hba, hcb]
          · have hca : ¬ c.1 < a.1 := by omega
            simp [nearer, hba, hcb, hca]

/-- A text farther on, all places are farther. -/
theorem nearer_push (c c' : Option Cut) (b : UInt8) :
    nearer ((c.map (Cut.push b)).map placeOf) ((c'.map (Cut.push b)).map placeOf)
      = (nearer (c.map placeOf) (c'.map placeOf)).map fun p => (p.1 + 1, p.2) := by
  cases c with
  | none => cases c' <;> rfl
  | some c =>
    cases c' with
    | none => rfl
    | some c' =>
      by_cases h : c'.before.length < c.before.length
      · simp [nearer, placeOf, Cut.push, h]
      · simp [nearer, placeOf, Cut.push, h]

/-- A search for several marks finds the nearer one of the first and of the others. -/
theorem place_cutAny?_cons (m : Text) (ms : List Text) (t : Text) :
    (cutAny? (m :: ms) t).map placeOf
      = nearer ((cut? m t).map placeOf) ((cutAny? ms t).map placeOf) := by
  by_cases hm : m.isPrefixOf t = true
  · -- no other one stands before the first of them at the head
    have hfirst : (m :: ms).find? (·.isPrefixOf t) = some m := by
      rw [List.find?_cons_of_pos]
      exact hm
    have halone : [m].find? (·.isPrefixOf t) = some m := by
      rw [List.find?_cons_of_pos]
      exact hm
    rw [cut?, cutAny?_of_find? hfirst, cutAny?_of_find? halone]
    cases (cutAny? ms t).map placeOf <;> rfl
  have hothers : (m :: ms).find? (·.isPrefixOf t) = ms.find? (·.isPrefixOf t) := by
    rw [List.find?_cons_of_neg]
    exact hm
  have halone : [m].find? (·.isPrefixOf t) = none := by
    rw [List.find?_cons_of_neg]
    · rfl
    · exact hm
  cases t with
  | nil =>
    unfold cut? cutAny? cutAny?.go
    rw [hothers, halone]
    rfl
  | cons b rest =>
    rw [cut?, cutAny?_cons halone]
    cases hf : ms.find? (·.isPrefixOf (b :: rest)) with
    | some p =>
      -- another one stands at the head, and the first one farther on, if at all
      rw [cutAny?_of_find? (hothers.trans hf), cutAny?_of_find? hf]
      cases cutAny? [m] rest with
      | none => rfl
      | some c => simp [nearer, placeOf, Cut.push]
    | none =>
      rw [cutAny?_cons (hothers.trans hf), cutAny?_cons hf, nearer_push, ← cut?,
        ← place_cutAny?_cons m ms rest, Option.map_map, Option.map_map]
      rfl

/-- Of the marks that are searched for one by one, the place is kept that is nearest so far. -/
theorem earliest_eq (t : Text) (best : Option Place) (marks : List Text) :
    earliest t best marks = nearer best ((cutAny? marks t).map placeOf) := by
  induction marks generalizing best with
  | nil =>
    have hnone : cutAny? [] t = none := by
      rw [cutAny?_eq_none_iff]
      simp
    rw [hnone]
    exact (nearer_none best).symm
  | cons m ms ih =>
    have hfirst : (find? m t 0).map (fun i => (i, m)) = (cut? m t).map placeOf := by
      rw [(Rest.start t).find?]
      cases hc : cut? m t with
      | none => rfl
      | some c => simp [placeOf, found_of_cut? hc]
    unfold earliest
    rw [ih, hfirst, nearer_assoc, place_cutAny?_cons]

/-- With no place known before, this is a search for all of the marks at once. -/
theorem earliest_none (t : Text) (marks : List Text) :
    earliest t none marks = (cutAny? marks t).map placeOf := by
  rw [earliest_eq]
  rfl

/-! ## §2. Front matter and body. -/

/-- A text without the first of some marks and the white behind it. -/
def eraseMark (marks : List Text) (t : Text) : Checked Text :=
  match earliest t none marks with
  | none => pure t
  | some (i, mark) => do
    let stop ← skipWhile isSpace t (i + mark.length)
    let count ← difference stop i
    erase t i count

/-- A mark is erased where it was found, with the white behind it. -/
@[simp] theorem eraseMark_eq (marks : List Text) (t : Text) :
    eraseMark marks t = .ok (FolioGrid.eraseMark marks t) := by
  unfold eraseMark FolioGrid.eraseMark
  rw [earliest_none]
  cases hc : cutAny? marks t with
  | none => rfl
  | some c =>
    have ht := append_of_cutAny? hc
    rw [List.append_assoc] at ht
    have hfound : Rest t c.before.length (c.found ++ c.after) := by
      rw [← ht]
      exact Rest.of_append _ _
    obtain ⟨stop, hstop, hrest⟩ := hfound.append.skipWhile isSpace
    dsimp only [Option.map_some, placeOf]
    have hle : c.before.length ≤ stop := by
      -- what is read from there on is a part of what stands behind the mark
      have hafter := hfound.append.length_eq
      have hlength := hrest.length_eq
      have hsuffix := (List.dropWhile_suffix (l := c.after) isSpace).length_le
      omega
    rw [hstop, ok_bind, difference_of_le hle, ok_bind, erase, if_pos hfound.le,
      Nat.add_sub_cancel' hle, hrest.drop_eq]
    conv => lhs; rw [← ht]
    rw [List.take_left]

/-- Front matter and body of what stands between a document's marks. -/
def splitBody (t : Text) : Checked (Text × Text) :=
  match earliest t none bodyBegins with
  | none => pure ([], t)
  | some (i, _) => do
    let preserved ← slice t 0 i
    let body ← sliceFrom t i
    pure (preserved, body)

/-- A body begins at the first mark that opens one, and what stands in front is preserved. -/
@[simp] theorem splitBody_eq (t : Text) : splitBody t = .ok (FolioGrid.splitBody t) := by
  unfold splitBody FolioGrid.splitBody
  rw [earliest_none]
  cases hc : cutAny? bodyBegins t with
  | none => rfl
  | some c =>
    have ht := append_of_cutAny? hc
    rw [List.append_assoc] at ht
    have hstart : Rest t 0 (c.before ++ (c.found ++ c.after)) := by
      rw [ht]
      exact Rest.start t
    have hfound := hstart.append
    rw [Nat.zero_add] at hfound
    dsimp only [Option.map_some, placeOf]
    rw [hstart.slice, ok_bind, hfound.sliceFrom]
    rfl

/-! ## §3. Documents. -/

/-- The parts of a document's text. -/
def readParts (t : Text) : Checked Parts :=
  match find? documentBegin t 0, find? documentEnd t 0 with
  | some i, some j =>
    if j < i then .error (.refused .documentReversed)
    else do
      let start := i + documentBegin.length
      let preamble ← slice t 0 start
      let footer ← sliceFrom t j
      let count ← difference j start
      let inner ← slice t start count
      let (preserved, body) ← splitBody inner
      pure ⟨preamble, preserved, body, footer⟩
  | _, _ => .error (.refused .documentNotFound)

/-- **A source is taken apart** at its marks, or refused where one is missing or they stand
the wrong way round. -/
theorem readParts_eq (t : Text) : readParts t = refusing (Parts.ofText t) := by
  unfold readParts Parts.ofText
  rw [(Rest.start t).find?, (Rest.start t).find?]
  cases hb : cut? documentBegin t with
  | none => rfl
  | some b =>
    cases he : cut? documentEnd t with
    | none => rfl
    | some e =>
      simp only [Option.map_some, Nat.zero_add]
      by_cases horder : e.before.length < b.before.length
      · rw [if_pos horder, if_pos horder]
        rfl
      · rw [if_neg horder, if_neg horder]
        have hbegin := firstAt_of_cut? (by decide) hb
        have hend := firstAt_of_cut? (by decide) he
        -- the two marks do not overlap
        have hapart := length_le_of_marks hbegin.here hend.here (Nat.le_of_not_lt horder)
        have htb : Rest t 0 ((b.before ++ b.found) ++ b.after) := by
          rw [append_of_cutAny? hb]
          exact Rest.start t
        have hte : e.before ++ (e.found ++ e.after) = t := by
          rw [← List.append_assoc]
          exact append_of_cutAny? he
        have hstart : b.before.length + documentBegin.length = (b.before ++ b.found).length := by
          rw [List.length_append, found_of_cut? hb]
        have hfooter : Rest t e.before.length (e.found ++ e.after) := by
          rw [← hte]
          exact Rest.of_append _ _
        have hinner : slice t (b.before ++ b.found).length
            (e.before.length - (b.before ++ b.found).length)
            = .ok (e.before.drop (b.before ++ b.found).length) := by
          have hbody := Rest.of_le (hstart ▸ hapart.trans hfooter.le)
          rw [hbody.slice_take, ← List.drop_take]
          conv => lhs; rw [← hte]
          rw [List.take_left]
        rw [hstart] at hapart ⊢
        rw [htb.slice, ok_bind, hfooter.sliceFrom, ok_bind, difference_of_le hapart, ok_bind,
          hinner, ok_bind, splitBody_eq]
        rfl

/-- The lines of a body inside its environment. -/
def bodyLines (body : Text) : Checked (List Text) := do
  let opened ← eraseMark bodyBegins body
  let inner ← eraseMark bodyEnds opened
  lines inner

/-- The lines of a body are those of the text from which the marks have been erased. -/
@[simp] theorem bodyLines_eq (body : Text) : bodyLines body = .ok (FolioGrid.bodyLines body) := by
  unfold bodyLines
  rw [eraseMark_eq, ok_bind, eraseMark_eq, ok_bind, lines_eq]
  rfl

/-- Read a document; what is reported on the way is left out. -/
def readDocument (k : Template) (t : Text) : Checked Document := do
  let parts ← readParts t
  let ls ← bodyLines parts.body
  let r ← readLines k (.ofLines ls) [] 0
  pure
    { preamble := parts.preamble
      preserved := parts.preserved
      blocks := r.blocks
      footer := parts.footer
      unbalanced := r.unbalanced
      unrecognized := r.unrecognized
      notices := [] }

/-- **Reading a document by offsets** is reading it. -/
theorem readDocument_eq (k : Template) (t : Text) :
    readDocument k t
      = refusing ((Document.ofText k.dialect t).map fun doc => { doc with notices := [] }) := by
  unfold readDocument Document.ofText
  rw [readParts_eq]
  cases Parts.ofText t with
  | error failure => rfl
  | ok parts =>
    rw [refusing_ok, ok_bind, bodyLines_eq, ok_bind, readLines_eq, ok_bind]
    simp only [Cursor.ofLines, List.nil_append, Nat.zero_add]
    have hfinish := k.builtIn.finish_eq
      (FolioGrid.readLines k.dialect (FolioGrid.bodyLines parts.body)).blocks
    show _ = Except.ok (Document.mk _ _ (k.dialect.finish _) _ _ _ _)
    rw [hfinish]
    rfl

end FolioGrid.Offsets
