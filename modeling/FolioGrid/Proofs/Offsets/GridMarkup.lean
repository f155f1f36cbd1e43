/-
  FolioGrid.Proofs.Offsets.GridMarkup
  ────────────────────────────────
  **MARKUP BY OFFSETS.**

  What is written of a document is a growing list of entries, of which only the last
  one is ever looked at or taken back.  There always is one, since an environment has
  been opened before.
-/
import FolioGrid.GridMarkup.Document
import FolioGrid.Proofs.Offsets.Reading
import FolioGrid.Proofs.Text.Lines

namespace FolioGrid.Offsets

open FolioGrid.Text FolioGrid.Markup FolioGrid.GridMarkup

/-! ## §1. Lines. -/

/-- The lines that are taken from a text up to their line feeds, as long as there is text. -/
def takeLines (t : Text) : List Text :=
  if t = [] then []
  else
    match _h : cut? [lineFeed] t with
    | none => [t]
    | some c => c.before :: takeLines c.after
termination_by t.length
decreasing_by
  have hlength := length_of_cut? _h
  rw [List.length_singleton] at hlength
  omega

/-- The lines of a text.  None is taken behind a line feed at its end, so an empty one is
added there. -/
def sourceLines (t : Text) : Checked (List Text) :=
  if t = [] then pure []
  else do
    let last ← lastOf t
    pure (if last = lineFeed then takeLines t ++ [[]] else takeLines t)

/-- A text has one line more than are taken from it if it is empty or ends with a line feed. -/
theorem lines_eq_takeLines (t : Text) :
    Text.lines t = takeLines t ++ if t = [] ∨ t.getLast? = some lineFeed then [[]] else [] := by
  by_cases ht : t = []
  · rw [if_pos (Or.inl ht), ht, takeLines, if_pos rfl]
    rfl
  rw [takeLines, if_neg ht]
  split
  · next hnone =>
    have hfree := cut?_singleton_eq_none_iff.1 hnone
    have hlast : ¬ (t = [] ∨ t.getLast? = some lineFeed) := by
      rintro (h | h)
      · exact ht h
      · exact hfree (List.mem_of_getLast? h)
    rw [if_neg hlast, Text.lines, pieces_of_not_mem hfree]
    rfl
  · next c hc =>
    obtain ⟨hsplit, hfree⟩ := of_cut?_singleton hc
    have hless : c.after.length < t.length := by
      rw [hsplit, List.length_append, List.length_cons]
      omega
    have hend : (t = [] ∨ t.getLast? = some lineFeed)
        ↔ (c.after = [] ∨ c.after.getLast? = some lineFeed) := by
      rw [hsplit, List.getLast?_append]
      cases c.after <;> simp
    have hrest := lines_eq_takeLines c.after
    simp only [hend]
    conv => lhs; rw [hsplit]
    rw [lines_append_cons, hrest, show Text.lines c.before = [c.before] from pieces_of_not_mem hfree]
    rfl
termination_by t.length
decreasing_by exact hless

/-- Of a text that is not empty, this last line is counted too. -/
theorem sourceLines_eq {t : Text} (ht : t ≠ []) : sourceLines t = .ok (Text.lines t) := by
  unfold sourceLines
  rw [if_neg ht, lines_eq_takeLines]
  obtain ⟨u, b, rfl⟩ : ∃ u b, t = u ++ [b] := ⟨_, _, (List.dropLast_concat_getLast ht).symm⟩
  rw [lastOf_concat, ok_bind, List.getLast?_concat]
  by_cases hb : b = lineFeed
  · rw [if_pos hb, if_pos (Or.inr (congrArg some hb))]
    rfl
  · rw [if_neg hb, if_neg (by simp [hb]), List.append_nil]
    rfl

/-- Lines written one below the other. -/
def joinLines (ls : List Text) : Checked Text := go 0
where
  /-- The lines from an index on; all but the first are written below another. -/
  go (i : Nat) : Checked Text :=
    if i < ls.length then do
      let line ← itemAt ls i
      let rest ← go (i + 1)
      pure ((if 0 < i then [lineFeed] else []) ++ line ++ rest)
    else pure []
  termination_by ls.length - i

/-- Behind the first line, each one has a line feed in front. -/
theorem Rest.joinLines_go {ls u : List Text} {i : Nat} (h : Rest ls (i + 1) u) :
    joinLines.go ls (i + 1) = .ok (u.flatMap (lineFeed :: ·)) := by
  induction u generalizing i with
  | nil =>
    rw [joinLines.go, if_neg h.not_lt]
    rfl
  | cons l u ih =>
    rw [joinLines.go, if_pos h.lt, Rest.itemAt h, ok_bind, ih h.next, if_pos (Nat.succ_pos i)]
    rfl

@[simp] theorem joinLines_eq (ls : List Text) : joinLines ls = .ok (Text.joinLines ls) := by
  unfold joinLines
  have h := Rest.start ls
  rw [joinLines.go]
  cases ls with
  | nil =>
    rw [if_neg h.not_lt]
    rfl
  | cons l ls =>
    have hrest : ∀ (l : Text) (ls : List Text),
        Text.joinLines (l :: ls) = l ++ ls.flatMap (lineFeed :: ·) := by
      intro l ls
      induction ls generalizing l with
      | nil => simp [Text.joinLines]
      | cons m ls ih =>
        rw [joinLines_cons l (List.cons_ne_nil m ls), ih]
        rfl
    rw [if_pos h.lt, Rest.itemAt h, ok_bind, h.next.joinLines_go, hrest]
    rfl

/-! ## §2. The preamble. -/

/-- Whether a text starts with one of some heads. -/
def startsWithAny (t : Text) : List Text → Checked Bool
  | [] => pure false
  | head :: heads => do
    let here ← startsWith t head
    if here then pure true else startsWithAny t heads

/-- Of several heads one is enough. -/
theorem startsWithAny_eq (t : Text) (heads : List Text) :
    startsWithAny t heads = .ok (heads.any (·.isPrefixOf t)) := by
  induction heads with
  | nil => rfl
  | cons head heads ih =>
    rw [startsWithAny, startsWith_eq, ok_bind, List.any_cons, ih]
    unfold after?
    by_cases hhead : head.isPrefixOf t = true
    · simp [hhead]
    · simp [hhead]

/-- The template that the class line of a source document names. -/
def sourceTemplate (line : Text) : Checked (Option Text) := do
  let here ← startsWith line classOpening
  if here then
    match find? [closeBracket] line classOpening.length with
    | none => pure none
    | some close =>
      if close = classOpening.length then pure none
      else do
        let rest ← sliceFrom line (close + 1)
        let known ← startsWithAny rest (sourceClasses.map group)
        if known then do
          let count ← difference close classOpening.length
          let name ← slice line classOpening.length count
          pure (some name)
        else pure none
  else pure none

/-- The template of a source is read between the brackets of its class line. -/
theorem sourceTemplate_eq (line : Text) : sourceTemplate line = .ok (sourceTemplate? line) := by
  unfold sourceTemplate sourceTemplate?
  rw [startsWith_eq, ok_bind]
  cases ha : after? classOpening line with
  | none => rfl
  | some rest =>
    have h := Rest.of_after? ha
    rw [Option.isSome_some, if_pos rfl, h.find?]
    simp only [Option.bind_eq_bind, Option.bind_some, List.span_eq_takeWhile_dropWhile]
    cases hc : cut? [closeBracket] rest with
    | none =>
      -- without a bracket, there is no tail
      rw [dropWhile_ne_eq_nil (cut?_singleton_eq_none_iff.1 hc), if_neg (by simp)]
      rfl
    | some c =>
      obtain ⟨rfl, hfree⟩ := of_cut?_singleton hc
      obtain ⟨hname, htail⟩ := span_ne_append_cons (u := c.after) hfree
      rw [hname, htail]
      simp only [Option.map_some, List.drop_one, List.tail_cons]
      by_cases hnil : c.before = []
      · rw [if_pos (by simp [hnil]), if_neg (by simp [hnil])]
        rfl
      · have hbehind : ¬ classOpening.length + c.before.length = classOpening.length := by
          have hpos := List.length_pos_iff.2 hnil
          omega
        rw [if_neg hbehind, h.append.next.sliceFrom, ok_bind, startsWithAny_eq, ok_bind,
          List.any_map, difference_add, ok_bind, h.slice, ok_bind]
        by_cases hknown : sourceClasses.any ((·.isPrefixOf c.after) ∘ group) = true
        · rw [if_pos hknown, if_pos ⟨hnil, List.cons_ne_nil _ _, hknown⟩]
          rfl
        · rw [if_neg hknown, if_neg fun hall => hknown hall.2.2]
          rfl

/-- What becomes of a line of the preamble. -/
def convertLine (s : Settings) (d : Dialect) (line : Text) : Checked (Option Text) := do
  let template ← sourceTemplate line
  match template with
  | some name => pure (some (classLine (((templateNames s d).get? name).getD name)))
  | none => do
    let stripped ← trim line
    let removed ← startsWithAny stripped
      (s.removedPackages.map fun p => command "usepackage" ++ group p)
    if removed then pure none
    else if stripped = [] then pure (some line)
    else do
      let b ← itemAt stripped 0
      pure (if b = percent then none else some line)

/-- A line of the preamble is kept, rewritten or dropped by itself. -/
theorem convertLine_eq (s : Settings) (d : Dialect) (line : Text) :
    convertLine s d line = .ok (preambleLine? s d line) := by
  unfold convertLine preambleLine?
  rw [sourceTemplate_eq, ok_bind]
  cases sourceTemplate? line with
  | some name => rfl
  | none =>
    dsimp only
    rw [trim_eq, ok_bind, startsWithAny_eq, ok_bind, List.any_map]
    by_cases hremoved : loadsRemoved s line = true
    · rw [if_pos (Or.inl hremoved)]
      exact if_pos hremoved
    · show ite (loadsRemoved s line = true) _ _ = _
      rw [if_neg hremoved]
      cases Text.trim line with
      | nil => simp [hremoved]
      | cons b rest =>
        rw [if_neg (List.cons_ne_nil b rest), (Rest.start (b :: rest)).itemAt, ok_bind]
        simp [hremoved]

/-- The lines of the preamble that are kept. -/
def keptLines (s : Settings) (d : Dialect) : List Text → Checked (List Text)
  | [] => pure []
  | line :: rest => do
    let kept ← convertLine s d line
    let following ← keptLines s d rest
    pure (kept.toList ++ following)

/-- So the lines that are kept are those that are not dropped, in order. -/
theorem keptLines_eq (s : Settings) (d : Dialect) (ls : List Text) :
    keptLines s d ls = .ok (ls.filterMap (preambleLine? s d)) := by
  induction ls with
  | nil => rfl
  | cons line rest ih =>
    rw [keptLines, convertLine_eq, ok_bind, ih, List.filterMap_cons]
    cases preambleLine? s d line <;> rfl

/-- Lines of which no two in a row are blank. -/
def collapse (afterBlank : Bool) : List Text → Checked (List Text)
  | [] => pure []
  | line :: rest => do
    let stripped ← trim line
    let following ← collapse (decide (stripped = [])) rest
    pure (if stripped = [] ∧ afterBlank then following else line :: following)

/-- Of blank lines that follow one another only the first is kept. -/
theorem collapse_eq (afterBlank : Bool) (ls : List Text) :
    collapse afterBlank ls = .ok (collapseBlank afterBlank ls) := by
  induction ls generalizing afterBlank with
  | nil => rfl
  | cons line rest ih =>
    rw [collapse, trim_eq, ok_bind, ih, ok_bind, collapseBlank]
    by_cases hblank : Text.trim line = []
    · cases afterBlank <;> simp [hblank]
    · simp [hblank]

/-- A preamble of the grid from that of a source document. -/
def convertPreamble (s : Settings) (d : Dialect) (t : Text) : Checked Text := do
  let ls ← sourceLines t
  let kept ← keptLines s d ls
  let cleaned ← collapse false kept
  joinLines cleaned

/-- **A preamble is converted** line by line and never looked at beyond its end. -/
theorem convertPreamble_eq (s : Settings) (d : Dialect) {t : Text} (ht : t ≠ []) :
    convertPreamble s d t = .ok (preamble s d t) := by
  unfold convertPreamble
  rw [sourceLines_eq ht, ok_bind, keptLines_eq, ok_bind, collapse_eq, ok_bind, joinLines_eq]
  rfl

/-! ## §3. The content. -/

/-- Whether the entries end with a page break. -/
def endsWithBreak (entries : List Text) : Checked Bool :=
  if entries = [] then pure false
  else do
    let last ← lastOf entries
    pure (decide (last = pageBreak))

/-- The entries without a page break at their end. -/
def withoutBreak (entries : List Text) : Checked (List Text) := do
  let ends ← endsWithBreak entries
  if ends then popLast entries else pure entries

/-- The entries with one more column, and whether a heading has been met. -/
def addColumn (entries : List Text) (headed : Bool) : Column → Checked (List Text × Bool)
  | .chapter title =>
    if headed then do
      let closed ← withoutBreak entries
      pure (closed ++ [contentEnd, newPage, heading title, contentBegin], true)
    else pure (entries, true)
  | .newPage => do
    let ends ← endsWithBreak entries
    pure (if ends then entries else entries ++ [pageBreak], headed)
  | .stamp markup => pure (entries ++ [stamp markup], headed)
  | .single t indent => pure (entries ++ [single t indent], headed)
  | .dual d => pure (entries ++ [dual d], headed)

/-- The entries with some more columns. -/
def addColumns (entries : List Text) (headed : Bool) : List Column → Checked (List Text)
  | [] => pure entries
  | c :: rest => do
    let (entries, headed) ← addColumn entries headed c
    addColumns entries headed rest

@[simp] theorem endsWithBreak_concat (entries : List Text) (last : Text) :
    endsWithBreak (entries ++ [last]) = .ok (decide (last = pageBreak)) := by
  unfold endsWithBreak
  rw [if_neg (by simp), lastOf_concat]
  rfl

/-- One more column is written behind whatever there is, if there is something. -/
theorem addColumn_eq (above : List Text) {w : Written} (hw : w.entries ≠ []) (c : Column) :
    addColumn (above ++ w.entries.reverse) w.headed c
      = .ok (above ++ (w.add c).entries.reverse, (w.add c).headed) ∧ (w.add c).entries ≠ [] := by
  obtain ⟨entries, headed⟩ := w
  obtain ⟨last, entries, rfl⟩ := List.exists_cons_of_ne_nil hw
  have hconcat : above ++ (last :: entries).reverse = (above ++ entries.reverse) ++ [last] := by
    rw [List.reverse_cons, List.append_assoc]
  cases c with
  | chapter title =>
    cases headed with
    | false => exact ⟨rfl, List.cons_ne_nil last entries⟩
    | true =>
      refine ⟨?_, List.cons_ne_nil _ _⟩
      dsimp only
      rw [addColumn, if_pos rfl, withoutBreak, hconcat, endsWithBreak_concat, ok_bind]
      by_cases hlast : last = pageBreak
      · rw [if_pos (decide_eq_true hlast), popLast_concat, ok_bind]
        simp [hlast, Written.add, Written.push, Written.dropBreak]
      · simp [hlast, Written.add, Written.push, Written.dropBreak]
  | newPage =>
    dsimp only
    rw [addColumn, hconcat, endsWithBreak_concat, ok_bind]
    by_cases hlast : last = pageBreak
    · simp [hlast, Written.add]
    · simp [hlast, Written.add, Written.push]
  | _ => exact ⟨by simp [addColumn, Written.add, Written.push], List.cons_ne_nil _ _⟩

/-- Columns are added to the entries that are there, of which the last may be a page break
that is taken back. -/
theorem addColumns_eq (above : List Text) {w : Written} (hw : w.entries ≠ [])
    (columns : List Column) :
    addColumns (above ++ w.entries.reverse) w.headed columns
      = .ok (above ++ (columns.foldl Written.add w).entries.reverse) := by
  induction columns generalizing w with
  | nil => rfl
  | cons c columns ih =>
    obtain ⟨hadd, hne⟩ := addColumn_eq above hw c
    rw [addColumns, hadd, ok_bind]
    exact ih hne

/-! ## §4. The document. -/

/-- The entries of the front matter. -/
def frontEntries (preserved : Text) : Checked (List Text) := do
  let stripped ← trim preserved
  if stripped = [] then pure []
  else do
    let front ← trimRight preserved
    pure [front, []]

/-- Text that is preserved gives the lines in front of the columns. -/
theorem frontEntries_eq (preserved : Text) :
    frontEntries preserved = .ok (GridMarkup.frontEntries preserved) := by
  unfold frontEntries GridMarkup.frontEntries
  rw [trim_eq, ok_bind]
  by_cases hblank : Text.trim preserved = []
  · rw [if_pos hblank, if_pos hblank]
    rfl
  · rw [if_neg hblank, if_neg hblank, trimRight_eq]
    rfl

/-- A document of the grid. -/
def generate (s : Settings) (d : Dialect) (before preserved : Text) (columns : List Column)
    (footer : Text) : Checked Text := do
  let head ← convertPreamble s d before
  let front ← frontEntries preserved
  let opened := [head, []] ++ front ++ ((firstTitle? columns).map heading).toList ++ [contentBegin]
  let entries ← addColumns opened false columns
  let tail ← trimRight footer
  joinLines (entries ++ [[], contentEnd, if tail = [] then endMark "document" else tail, []])

/-- **Writing a document by offsets** is writing it. -/
theorem generate_eq (s : Settings) (d : Dialect) {before : Text} (hbefore : before ≠ [])
    (preserved : Text) (columns : List Column) (footer : Text) :
    generate s d before preserved columns footer
      = .ok (GridMarkup.document s d before preserved columns footer) := by
  unfold generate
  rw [convertPreamble_eq s d hbefore, ok_bind, frontEntries_eq, ok_bind]
  -- the first entry of the content is the one that opens an environment
  have hcontent := addColumns_eq ([preamble s d before, []] ++ GridMarkup.frontEntries preserved
    ++ ((firstTitle? columns).map heading).toList) (w := Written.start) (List.cons_ne_nil _ _) columns
  dsimp only
  rw [show [contentBegin] = Written.start.entries.reverse from rfl,
    show false = Written.start.headed from rfl, hcontent, ok_bind, trimRight_eq, ok_bind,
    joinLines_eq]
  rfl

end FolioGrid.Offsets
