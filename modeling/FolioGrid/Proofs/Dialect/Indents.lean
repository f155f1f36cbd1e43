/-
  FolioGrid.Proofs.Dialect.Indents
  ────────────────────────────────
  **WHERE BLOCKS STAND.**

  The numbers of a body are digits that were read, and are in range (`InCount`); from
  these, indents are made by reading and by elevation, and stay in range
  (`placed_of_mem_readLines`).

  Elevation does sums with indents.  The place at which words stand lies between the
  highest one and the indent of their gloss (`Between`).  Every event keeps it there,
  so the checked form of the scan never stops (`Elevation.expand?_eq`).
-/
import FolioGrid.Proofs.Dialect.Glosses
import FolioGrid.Proofs.Layout.Indents

namespace FolioGrid

open FolioGrid.Text FolioGrid.Markup

variable {t : Text}

/-! ## §1. Counts. -/

/-- What a numeral can stand for. -/
def InCount (i : Int) : Prop := 0 ≤ i ∧ i ≤ maxCount

theorem inCount_zero : InCount 0 := ⟨Int.le_refl 0, by decide⟩

/-- What is read as a count is in its range. -/
theorem inCount_of_count? {n : Nat} (h : count? t = some n) : InCount n := by
  unfold count? at h
  split at h
  · next hcount =>
    cases h
    rw [Bool.and_eq_true, decide_eq_true_eq] at hcount
    exact ⟨Int.natCast_nonneg _, Int.ofNat_le.2 hcount.2⟩
  · cases h

/-! ## §2. Elevation. -/

namespace Elevation

/-- A place between the highest one and an indent. -/
def Between (base i : Int) : Prop := -1 ≤ i ∧ i ≤ base

/-- An event that leads to a place on the page, or up by a number that was counted. -/
def Event.Placed : Event → Prop
  | .move place => place = -1 ∨ place = 0
  | .raise level _ => InCount level
  | .run _ | .lineBreak | .dynasty => True

/-- A raise has a count for its level. -/
theorem placed_of_raiseArguments? {e : Event} {rest : Text}
    (h : raiseArguments? t = some (e, rest)) : e.Placed := by
  obtain ⟨level, -, h⟩ := Option.bind_eq_some_iff.1 h
  obtain ⟨body, -, h⟩ := Option.bind_eq_some_iff.1 h
  obtain ⟨n, hn, h⟩ := Option.bind_eq_some_iff.1 h
  cases h
  exact inCount_of_count? hn

/-- So every event that a command makes has its place in range, -/
theorem placed_of_command? {found : List Event} {rest : Text}
    (h : command? t = some (found, rest)) : ∀ e ∈ found, e.Placed := by
  have single : ∀ {e : Event}, e.Placed → ∀ e' ∈ [e], e'.Placed := by
    intro e he e' he'
    rwa [List.mem_singleton.1 he']
  -- one split for each command, in the order in which they are tried
  unfold command? at h
  split at h
  · cases h
    exact single trivial
  split at h
  · split at h
    · next e _ hraise =>
      cases h
      exact single (placed_of_raiseArguments? hraise)
    · cases h
      simp
  split at h
  · cases h
    exact single (Or.inl rfl)
  split at h
  · cases h
    exact single (Or.inr rfl)
  split at h
  · cases h
    exact single trivial
  · cases h

/-- **and so has every event of an annotation.** -/
theorem placed_of_mem_events_go (passed t : Text) : ∀ e ∈ events.go passed t, e.Placed := by
  fun_induction events.go passed t with
  | case1 passed t found rest hcommand ih =>
    intro e he
    rcases List.mem_cons.1 he with rfl | he
    · trivial
    rcases List.mem_append.1 he with he | he
    · exact placed_of_command? hcommand e he
    · exact ih e he
  | case2 passed hnone =>
    intro e he
    rw [List.mem_singleton.1 he]
    trivial
  | case3 passed b rest hnone ih => exact ih

variable {base indent : Int} {pending : Bool} {es : List Event}

/-- Raised words stand between the highest place and the indent of the gloss. -/
theorem between_raisedIndent (hbase : 0 ≤ base) (level : Nat) :
    Between base (raisedIndent base level) := by
  unfold Between raisedIndent highest
  omega

/-- So do words behind a command that leads to a place. -/
theorem Event.Placed.between {place : Int} (h : (Event.move place).Placed) (hbase : 0 ≤ base) :
    Between base place := by
  unfold Between
  rcases h with rfl | rfl
  · omega
  · omega

/-- **No segment stands above the highest place or below its gloss.** -/
theorem between_of_mem_segmentsFrom (hbase : 0 ≤ base) (hindent : Between base indent)
    (hes : ∀ e ∈ es, e.Placed) :
    ∀ s ∈ segmentsFrom base indent pending es, Between base (base + s.delta) := by
  have head : ∀ {i : Int} {t : Text} {force : Bool}, Between base i →
      Between base (base + (⟨t, i - base, force⟩ : Segment).delta) := by
    intro i t force hi
    have hsum : base + (i - base) = i := by omega
    show Between base (base + (i - base))
    rwa [hsum]
  fun_induction segmentsFrom base indent pending es with
  | case1 => simp
  | case2 indent pending t es hblank ih => exact ih hindent (List.forall_mem_cons.1 hes).2
  | case3 indent pending t es hblank ih =>
    rw [List.forall_mem_cons]
    exact ⟨head hindent, ih hindent (List.forall_mem_cons.1 hes).2⟩
  | case4 indent pending es ih => exact ih hindent (List.forall_mem_cons.1 hes).2
  | case5 indent pending place es ih =>
    obtain ⟨hplace, hes⟩ := List.forall_mem_cons.1 hes
    exact ih (hplace.between hbase) hes
  | case6 indent pending es ih =>
    rw [List.forall_mem_cons]
    exact ⟨head hindent, ih hindent (List.forall_mem_cons.1 hes).2⟩
  | case7 indent pending level t es hblank ih =>
    exact ih (between_raisedIndent hbase level) (List.forall_mem_cons.1 hes).2
  | case8 indent pending level t es hblank ih =>
    rw [List.forall_mem_cons]
    have hraised := between_raisedIndent hbase level
    exact ⟨head hraised, ih hraised (List.forall_mem_cons.1 hes).2⟩

/-- The segments of events, if no difference of indents leaves the machine words. -/
def segmentsFrom? (base indent : Int) (pending : Bool) : List Event → Option (List Segment)
  | [] => pure []
  | .run t :: rest =>
    if trim t = [] then segmentsFrom? base indent pending rest
    else do
      let delta ← word? (indent - base)
      let following ← segmentsFrom? base indent false rest
      pure (⟨trim t, delta, pending⟩ :: following)
  | .lineBreak :: rest => segmentsFrom? base indent true rest
  | .move place :: rest => segmentsFrom? base place true rest
  | .dynasty :: rest => do
    let delta ← word? (indent - base)
    let following ← segmentsFrom? base indent false rest
    pure (⟨dynastyName, delta, true⟩ :: following)
  | .raise level t :: rest => do
    let place ← word? (base - level)
    if trim t = [] then segmentsFrom? base (max place highest) true rest
    else do
      let delta ← word? (max place highest - base)
      let following ← segmentsFrom? base (max place highest) false rest
      pure (⟨trim t, delta, true⟩ :: following)

/-- The segments of a gloss's text, computed with machine words. -/
def expand? (t : Text) (base : Int) : Option (List Segment) :=
  segmentsFrom? base base false (events t)

/-- **No distance leaves the machine words**: segments are made with the checks as they are
without. -/
theorem segmentsFrom?_eq (hbase : InCount base) (hindent : Between base indent)
    (hes : ∀ e ∈ es, e.Placed) :
    segmentsFrom? base indent pending es = some (segmentsFrom base indent pending es) := by
  have hdelta : ∀ {i : Int}, Between base i → word? (i - base) = some (i - base) := by
    intro i hi
    refine word?_eq_some ?_
    unfold Between at hi
    unfold InCount maxCount at hbase
    unfold Fits
    omega
  have hraise : ∀ {level : Nat} {t : Text}, (Event.raise level t).Placed →
      word? (base - level) = some (base - level) := by
    intro level t hlevel
    refine word?_eq_some ?_
    unfold Event.Placed InCount maxCount at hlevel
    unfold InCount maxCount at hbase
    unfold Fits
    omega
  fun_induction segmentsFrom base indent pending es with
  | case1 => rfl
  | case2 indent pending t es hblank ih =>
    rw [segmentsFrom?, if_pos hblank, ih hindent (List.forall_mem_cons.1 hes).2]
  | case3 indent pending t es hblank ih =>
    rw [segmentsFrom?, if_neg hblank, hdelta hindent, ih hindent (List.forall_mem_cons.1 hes).2]
    rfl
  | case4 indent pending es ih => rw [segmentsFrom?, ih hindent (List.forall_mem_cons.1 hes).2]
  | case5 indent pending place es ih =>
    obtain ⟨hplace, hes⟩ := List.forall_mem_cons.1 hes
    rw [segmentsFrom?, ih (hplace.between hbase.1) hes]
  | case6 indent pending es ih =>
    rw [segmentsFrom?, hdelta hindent, ih hindent (List.forall_mem_cons.1 hes).2]
    rfl
  | case7 indent pending level t es hblank ih =>
    obtain ⟨hlevel, hes⟩ := List.forall_mem_cons.1 hes
    rw [segmentsFrom?, hraise hlevel, ← ih (between_raisedIndent hbase.1 level) hes]
    exact if_pos hblank
  | case8 indent pending level t es hblank ih =>
    obtain ⟨hlevel, hes⟩ := List.forall_mem_cons.1 hes
    have hraised := between_raisedIndent hbase.1 level
    have hplace : word? (max (base - level) highest - base)
        = some (raisedIndent base level - base) := hdelta hraised
    have hrest := ih hraised hes
    unfold raisedIndent at hrest
    rw [segmentsFrom?, hraise hlevel]
    show (if trim t = [] then _ else _) = _
    rw [if_neg hblank, hplace, hrest]
    rfl

/-- **Elevation stays inside the machine words**, whatever the text. -/
theorem expand?_eq (t : Text) (hbase : InCount base) : expand? t base = some (expand t base).value :=
  segmentsFrom?_eq hbase ⟨by unfold InCount at hbase; omega, Int.le_refl base⟩
    (placed_of_mem_events_go [] t)

end Elevation

/-! ## §3. Glosses. -/

/-- A gloss that stands where glosses or notes do, and rises to the highest place at
most. -/
structure Gloss.Placed (a : Gloss) : Prop where
  /-- A gloss has one indent, and an editor's note another. -/
  indent : a.indent = 2 ∨ a.indent = 4
  /-- Each segment stands at the indent or above it. -/
  segments : ∀ s ∈ a.segments, -1 ≤ a.indent + s.delta ∧ a.indent + s.delta ≤ a.indent

namespace Catalogue

/-- A gloss has the indent of its annotation, and segments of it. -/
theorem eq_of_gloss? {indent : Int} {segments : List Segment} {a : Gloss}
    (h : gloss? indent segments = some a) : a.indent = indent ∧ a.segments ⊆ segments := by
  cases segments with
  | nil => cases h
  | cons s rest =>
    cases h
    refine ⟨rfl, ?_⟩
    dsimp only
    split
    · simp
    · exact List.Subset.refl _

/-- A gloss stands two or four characters below the margin. -/
theorem placed_of_mem_readGloss {command : Text} {indent : Int} {unwrap : Bool} {ls : List Text}
    (hindent : indent = 2 ∨ indent = 4) {b : Block}
    (h : b ∈ (readGloss command indent unwrap ls).blocks) : ∃ a, b = .gloss a ∧ a.Placed := by
  obtain ⟨a, ha, rfl⟩ := List.mem_map.1 (show b ∈ List.map _ _ from h)
  obtain ⟨rfl, hsegments⟩ := eq_of_gloss? (Option.mem_toList.1 ha)
  refine ⟨a, rfl, hindent, fun s hs => ?_⟩
  obtain ⟨s', hs', -, -, hdelta⟩ := exists_of_mem_cleanSegments (hsegments hs)
  have hbase : 0 ≤ a.indent := by omega
  rw [hdelta]
  exact Elevation.between_of_mem_segmentsFrom hbase ⟨by omega, Int.le_refl _⟩
    (Elevation.placed_of_mem_events_go [] _) s' hs'

end Catalogue

/-! ## §4. Blocks. -/

/-- A block whose indents are in range. -/
inductive Block.Placed : Block → Prop where
  /-- A heading has none. -/
  | chapter {title : Text} : Placed (.chapter title)
  /-- Nor has the end of a page. -/
  | newPage : Placed .newPage
  /-- Nor has a seal. -/
  | stamp {markup : Text} : Placed (.stamp markup)
  /-- The indent of a line of text. -/
  | text {t : Text} {indent : Int} (h : InCount indent) : Placed (.text t indent)
  /-- The level of an entry. -/
  | entry {level : Int} {t : Text} (h : InCount level) : Placed (.entry level t)
  /-- Both indents of a paragraph. -/
  | paragraph {p : Paragraph} (hfirst : InCount p.firstIndent) (hlater : InCount p.indent) :
      Placed (.paragraph p)
  /-- All indents of a gloss. -/
  | gloss {a : Gloss} (h : a.Placed) : Placed (.gloss a)

namespace Paragraph

/-- An indent that an option gives is a count, or the one it stands in for. -/
theorem inCount_indentOption (options : Table) (key : Text) {otherwise : Int}
    (h : InCount otherwise) : InCount (indentOption options key otherwise).value := by
  unfold indentOption
  split
  · exact h
  split
  · next n hn => exact inCount_of_count? hn
  · exact h

/-- So are both indents of a paragraph. -/
theorem placed_of_mem_read {afterOpening : Text} {below : List Text} {b : Block}
    (h : b ∈ (read afterOpening below).blocks) : b.Placed := by
  have hb := show b ∈ (if _ then [] else [Block.paragraph _]) from h
  split at hb
  · cases hb
  · rw [List.mem_singleton.1 hb]
    -- the first indent is the other one unless the options say more
    have hindent := inCount_indentOption (optionTable ((optionalArgument? afterOpening).elim []
      (·.content))) (utf8 "indent") inCount_zero
    exact .paragraph (inCount_indentOption _ (utf8 "first-indent") hindent) hindent

end Paragraph

/-- The level of an entry is a count. -/
theorem Entry.placed_of_ofLine? {line : Text} {b : Block} (h : (ofLine? line).value = some b) :
    b.Placed := by
  unfold ofLine? at h
  split at h
  · cases h
  split at h
  · cases h
  · next n hn =>
    obtain ⟨t, -, rfl⟩ := Option.map_eq_some_iff.1 h
    exact .entry (inCount_of_count? hn)

/-- Whichever way a line was read, its block stands in range. -/
theorem Line.Gives.placed {d : Dialect} (hd : d.BuiltIn) {line : Text} {ls : List Text} {b : Block}
    (h : Line.Gives d line ls b) : b.Placed := by
  cases h with
  | chapter h => exact .chapter
  | newPage h => exact .newPage
  | stamp h => exact .stamp
  | paragraph h hb => exact Paragraph.placed_of_mem_read hb
  | entry h => exact Entry.placed_of_ofLine? h
  | plain words => exact .text inCount_zero
  | styled h words => exact .text inCount_zero
  | command h hb =>
    cases hd with
    | plain => cases h
    | catalogue =>
      rcases Catalogue.eq_of_readCommand h with ⟨-, rfl⟩ | ⟨-, rfl⟩
      · obtain ⟨a, rfl, ha⟩ := Catalogue.placed_of_mem_readGloss (Or.inl rfl) hb
        exact .gloss ha
      · obtain ⟨a, rfl, ha⟩ := Catalogue.placed_of_mem_readGloss (Or.inr rfl) hb
        exact .gloss ha

/-- **The blocks of a body stand in range.** -/
theorem placed_of_mem_readLines {d : Dialect} (hd : d.BuiltIn) {ls : List Text} :
    ∀ b ∈ (readLines d ls).blocks, b.Placed := by
  intro b hb
  obtain ⟨first, rest, -, hb, -⟩ := exists_read_of_mem_readLines ls hb
  exact (Line.gives_of_mem_read hb).placed hd

/-- The passages of a gloss stand where its segments do, or where it stands. -/
theorem Gloss.Placed.passages {a : Gloss} (h : a.Placed) :
    ∀ q ∈ a.passages, -1 ≤ q.indent ∧ q.indent ≤ a.indent := by
  intro q hq
  have hindent := h.indent
  have hall := (List.mem_filter.1 hq).1
  split at hall
  · rw [List.mem_singleton.1 hall]
    exact ⟨by dsimp only; omega, Int.le_refl _⟩
  · obtain ⟨s, hs, rfl⟩ := List.mem_map.1 hall
    exact h.segments s hs

/-- All indents of a block in range lie between the highest place and the largest
count. -/
theorem Block.Placed.of_mem_indents {b : Block} (h : b.Placed) :
    ∀ i ∈ b.indents, -1 ≤ i ∧ i ≤ maxCount := by
  have single : ∀ {i : Int}, InCount i → ∀ j ∈ [i], -1 ≤ j ∧ j ≤ maxCount := by
    intro i hi j hj
    rw [List.mem_singleton.1 hj]
    exact ⟨by have := hi.1; omega, hi.2⟩
  cases h with
  | chapter => simp [Block.indents]
  | newPage => simp [Block.indents]
  | stamp => simp [Block.indents]
  | text h => exact single h
  | entry h => exact single h
  | paragraph hfirst hlater =>
    exact List.forall_mem_cons.2 ⟨single hfirst _ List.mem_cons_self, single hlater⟩
  | gloss h =>
    intro i hi
    obtain ⟨q, hq, rfl⟩ := List.mem_map.1 hi
    have hindent := h.indent
    obtain ⟨habove, hbelow⟩ := h.passages q hq
    unfold maxCount
    omega

end FolioGrid
