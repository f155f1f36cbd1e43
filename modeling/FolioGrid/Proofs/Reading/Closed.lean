/-
  FolioGrid.Proofs.Reading.Closed
  ────────────────────────────────
  **CLOSED LINES ARE READ BY THEMSELVES.**

  A command or a paragraph may take lines from below, but only until it closes,
  and one that never closes is counted.  So where nothing was counted, no
  line of what stands below was touched:

      Settled                  — what this says of a reader
      content_readLines_append — a body is read piece by piece

  White in front of a body does not matter either
  (`content_readLines_dropWhile`).
-/
import FolioGrid.Proofs.Reading.Collecting
import FolioGrid.Proofs.Reading.Readers

namespace FolioGrid

open FolioGrid.Text FolioGrid.Markup

/-! ## §1. Collecting. -/

/-- **An argument that closes in some lines is collected from these**, whatever
stands below. -/
theorem collect_concat_nil {c : Text} {ls : List Text}
    (h : (collect c (ls ++ [[]])).closed = true) :
    (collect c (ls ++ [[]])).lines ≤ ls.length
      ∧ ∀ more, collect c (ls ++ more) = collect c (ls ++ [[]]) := by
  have hcollects := collects c (ls ++ [[]])
  generalize hr : collect c (ls ++ [[]]) = r at h hcollects
  cases hcollects with
  | unclosed => cases h
  | @closed k a hk hopen hclosed =>
    have hle : k ≤ ls.length := by
      by_contra hlt
      -- the empty line behind the others would add what closes the argument
      obtain rfl : k = (ls ++ [[]]).length := by
        rw [List.length_append, List.length_singleton] at hk ⊢
        omega
      have hnone := hopen ls.length (by simp)
      rw [List.take_left] at hnone
      rw [List.take_length] at hclosed
      have hblank : ∀ l ∈ [([] : Text)], trim l = [] := by decide
      obtain ⟨u, hu, hlonger⟩ := exists_gathered_append_blank ls hblank
      rw [hlonger, closedArgument?_append_eq_none (hu closeBrace (by decide)) hnone] at hclosed
      cases hclosed
    refine ⟨hle, fun more => ?_⟩
    have htake : ∀ j ≤ k, (ls ++ [[]]).take j = ls.take j :=
      fun j hj => List.take_append_of_le_length (Nat.le_trans hj hle)
    rw [htake k (Nat.le_refl k)] at hclosed hr ⊢
    have hfew := (collects c ls).eq (.closed hle (fun j hj => by
      rw [← htake j (Nat.le_of_lt hj)]
      exact hopen j hj) hclosed)
    rw [collect_append (by rw [hfew]), hfew]

/-! ## §2. Readers settle. -/

/-- A reader that leaves nothing open in some lines takes none but these, and
reads them in one way whatever stands below.  That nothing was left open is seen
with an empty line below. -/
def Settled (read : List Text → Reading) (ls : List Text) : Prop :=
  (read (ls ++ [[]])).unbalanced = 0 →
    (read (ls ++ [[]])).lines ≤ ls.length ∧ ∀ more, read (ls ++ more) = read (ls ++ [[]])

variable {first : Text} {rest : List Text}

/-- A reader that makes something of a collected argument. -/
theorem settled_of_collect {name : String} {read : List Text → Reading}
    (hread : ∀ ls ls', collect (command name) ls = collect (command name) ls' → read ls = read ls')
    (hlines : ∀ ls, (read ls).lines = (collect (command name) ls).lines)
    (hunbalanced : ∀ ls, (read ls).unbalanced = (collect (command name) ls).unbalanced) :
    Settled read (first :: rest) := by
  intro h
  have hclosed : (collect (command name) (first :: rest ++ [[]])).closed = true := by
    rw [hunbalanced] at h
    exact Collected.closed_of_unbalanced h
  obtain ⟨htaken, hmore⟩ := collect_concat_nil hclosed
  exact ⟨(hlines _).trans_le htaken, fun more => hread _ _ (hmore more)⟩

/-- A paragraph that is closed in some lines. -/
theorem Paragraph.enclosed_append {ls : List Text} (h : (enclosed (ls ++ [[]])).closed = true) :
    (enclosed (ls ++ [[]])).taken ≤ ls.length
      ∧ ∀ more, enclosed (ls ++ more) = enclosed (ls ++ [[]]) := by
  induction ls with
  | nil =>
    -- the mark of the end does not stand in an empty line
    have hopen : (enclosed [[]]).closed = false := rfl
    rw [List.nil_append, hopen] at h
    cases h
  | cons l ls ih =>
    cases hcut : cut? closing l with
    | some c =>
      refine ⟨?_, fun more => ?_⟩
      · rw [List.cons_append, enclosed_cons_of_some hcut, List.length_cons]
        exact Nat.le_add_left 1 _
      · rw [List.cons_append, List.cons_append, enclosed_cons_of_some hcut,
          enclosed_cons_of_some hcut]
    | none =>
      rw [List.cons_append, enclosed_cons_of_none hcut] at h ⊢
      obtain ⟨htaken, hmore⟩ := ih h
      refine ⟨Nat.succ_le_succ htaken, fun more => ?_⟩
      rw [List.cons_append, enclosed_cons_of_none hcut, hmore]

theorem Paragraph.settled_read (afterOpening : Text) :
    Settled (fun ls => read afterOpening (ls.drop 1)) (first :: rest) := by
  intro h
  have hclosed : (enclosed (skipOption afterOpening :: rest ++ [[]])).closed = true := by
    have hif := show (if (enclosed (skipOption afterOpening :: rest ++ [[]])).closed then 0 else 1)
      = 0 from h
    split at hif
    · next hc => exact hc
    · cases hif
  obtain ⟨htaken, hmore⟩ := enclosed_append hclosed
  refine ⟨htaken, fun more => ?_⟩
  simp only [List.cons_append, List.drop_succ_cons, List.drop_zero]
  -- the reading is made of what is enclosed, and of nothing else below
  unfold read
  rw [← List.cons_append, hmore]
  rfl

/-- **Every reader of a line settles.** -/
theorem Line.Reader.settled {read : List Text → Reading} (h : Line.Reader read) :
    Settled read (first :: rest) := by
  induction h with
  | alone hr => exact fun _ => ⟨hr.trans (Nat.le_add_left 1 _), fun _ => rfl⟩
  | stamp =>
    exact settled_of_collect (fun _ _ => Stamp.read_congr) (fun _ => rfl) fun _ => rfl
  | paragraph afterOpening => exact Paragraph.settled_read afterOpening
  | gloss indent unwrap _ =>
    exact settled_of_collect (fun _ _ => Catalogue.readGloss_congr indent unwrap)
      (fun _ => rfl) fun _ => rfl
  | after notices _ ih =>
    intro hclosed
    obtain ⟨hlines, hmore⟩ := ih hclosed
    exact ⟨hlines, fun more => congrArg (Reading.after notices) (hmore more)⟩

/-! ## §3. Bodies. -/

section

variable {d : Dialect}

/-- A line that leaves nothing open. -/
theorem Line.read_append (hd : d.BuiltIn) (h : (Line.read d first (rest ++ [[]])).unbalanced = 0) :
    (Line.read d first (rest ++ [[]])).lines ≤ rest.length + 1
      ∧ ∀ more, Line.read d first (rest ++ more) = Line.read d first (rest ++ [[]]) := by
  simp only [Line.read_eq hd] at h ⊢
  by_cases hsilent : isSilent (trim first) = true
  · simp only [if_pos hsilent]
    exact ⟨Nat.zero_le _, fun _ => trivial⟩
  · simp only [if_neg hsilent] at h ⊢
    exact (reader_readTrimmed hd (trim first)).settled h

/-- What a reading says, however many lines it took. -/
def Reading.content (r : Reading) : Reading := { r with lines := 0 }

theorem Reading.content_append (r s : Reading) : (r ++ s).content = r.content ++ s.content := rfl

theorem Reading.append_assoc (r s u : Reading) : r ++ s ++ u = r ++ (s ++ u) := by
  show Reading.append (Reading.append r s) u = Reading.append r (Reading.append s u)
  unfold Reading.append
  simp only [List.append_assoc, Nat.add_assoc]

theorem Reading.empty_append (r : Reading) : Reading.empty ++ r = r := by
  show Reading.append Reading.empty r = r
  unfold Reading.append Reading.empty
  simp only [List.nil_append, Nat.zero_add]

theorem Reading.append_empty (r : Reading) : r ++ Reading.empty = r := by
  show Reading.append r Reading.empty = r
  unfold Reading.append Reading.empty
  simp only [List.append_nil, Nat.add_zero]

/-- An empty line says nothing. -/
theorem readLines_blank (ls : List Text) : readLines d ([] :: ls) = readLines d ls := by
  have hread : Line.read d [] ls = Reading.empty := rfl
  rw [readLines_cons, hread, Reading.empty_append]
  rfl

/-- Lines that are taken by one reading, with an empty one below. -/
theorem readLines_of_read {r : Reading} (hread : Line.read d first (rest ++ [[]]) = r)
    (hlines : r.lines = rest.length + 1) : readLines d (first :: rest ++ [[]]) = r := by
  have htaken : r.taken - 1 = rest.length := by
    unfold Reading.taken
    omega
  rw [List.cons_append, readLines_cons, hread, htaken, List.drop_left, readLines_blank,
    readLines_nil, Reading.append_empty]

/-- **Bodies are read piece by piece.** If nothing is left open in some lines,
what these and further ones say is what the ones say and then the others. -/
theorem content_readLines_append (hd : d.BuiltIn) {A : List Text}
    (h : (readLines d (A ++ [[]])).unbalanced = 0) (B : List Text) :
    (readLines d (A ++ B)).content
      = (readLines d (A ++ [[]])).content ++ (readLines d B).content := by
  -- a reading may take several lines, so the induction is on how many there are
  induction hn : A.length using Nat.strong_induction_on generalizing A with
  | _ n ih =>
    cases A with
    | nil =>
      rw [List.nil_append, List.nil_append, readLines_blank, readLines_nil]
      exact (Reading.empty_append _).symm
    | cons first rest =>
      rw [List.cons_append, readLines_cons] at h
      obtain ⟨hfirst, hrest⟩ := Nat.add_eq_zero_iff.1
        (show (Line.read d first (rest ++ [[]])).unbalanced + (readLines d _).unbalanced = 0 from h)
      obtain ⟨hlines, hmore⟩ := Line.read_append hd hfirst
      rw [List.cons_append, List.cons_append, readLines_cons, readLines_cons, hmore]
      generalize hr : Line.read d first (rest ++ [[]]) = r at hlines hrest
      have htaken : r.taken - 1 ≤ rest.length := by
        unfold Reading.taken
        omega
      rw [List.drop_append_of_le_length htaken] at hrest ⊢
      rw [List.drop_append_of_le_length htaken, Reading.content_append, Reading.content_append,
        Reading.append_assoc]
      have hshorter : (rest.drop (r.taken - 1)).length < n := by
        rw [← hn, List.length_drop, List.length_cons]
        omega
      rw [ih _ hshorter hrest rfl]

/-- **White in front of a body says nothing.** -/
theorem content_readLines_dropWhile (hd : d.BuiltIn) (t : Text) :
    (readLines d (lines (t.dropWhile isSpace))).content = (readLines d (lines t)).content := by
  induction t with
  | nil => rfl
  | cons b t ih =>
    by_cases hb : isSpace b = true
    · rw [List.dropWhile_cons_of_pos hb, ih]
      by_cases hlf : b = lineFeed
      · rw [hlf, ← List.nil_append (lineFeed :: t), lines_append_cons]
        exact congrArg Reading.content (readLines_blank (lines t)).symm
      · obtain ⟨first, rest, ht, hbt⟩ := exists_lines_cons hlf t
        rw [ht, hbt]
        refine congrArg Reading.content (readLines_congr hd ?_)
        rw [List.map_cons, List.map_cons, trim_cons_of_isSpace hb]
    · rw [List.dropWhile_cons_of_neg hb]

end

end FolioGrid
