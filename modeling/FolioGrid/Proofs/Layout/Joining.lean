/-
  FolioGrid.Proofs.Layout.Joining
  ────────────────────────────────
  **A BOOK IN PARTS.**

  Only a run of glosses is more than the blocks of which it is made.  So a book may
  be laid out in parts, as long as no run goes on from one to the next; and of a run
  nothing counts but its stream, wherever one gloss ends and another begins.

      RunGoesOn         — a run that is cut in two
      stretches_append  — gathering runs, part by part
      Stretch.Alike     — runs that have the same stream

  Main result: `layout_by_parts`.
-/
import FolioGrid.Layout.Basic
import FolioGrid.Proofs.Failure
import Mathlib.Data.List.Forall2

namespace FolioGrid

open FolioGrid.Text

/-! ## §1. Parts. -/

/-- Whether a run of glosses goes on from some blocks to those that follow them. -/
def RunGoesOn (above below : List Block) : Prop :=
  above.getLast?.map Block.kind = some .gloss ∧ below.head?.map Block.kind = some .gloss

instance (above below : List Block) : Decidable (RunGoesOn above below) :=
  inferInstanceAs (Decidable (_ ∧ _))

theorem Stretch.push_append (b : Block) {rs : List Stretch} (h : rs ≠ []) (rs' : List Stretch) :
    Stretch.push b (rs ++ rs') = Stretch.push b rs ++ rs' := by
  obtain ⟨r, rest, rfl⟩ := List.exists_cons_of_ne_nil h
  -- only a gloss looks at what comes next, and that is the same stretch
  cases b with
  | gloss a => cases r <;> rfl
  | _ => rfl

theorem Stretch.push_ne_nil (b : Block) (rs : List Stretch) : Stretch.push b rs ≠ [] := by
  cases b with
  | gloss a => rcases rs with _ | ⟨⟨c⟩ | ⟨glosses⟩, rest⟩ <;> exact List.cons_ne_nil _ _
  | _ => exact List.cons_ne_nil _ _

/-- A block above the first one of a part, if they are not both glosses, is a stretch by
itself. -/
theorem Stretch.push_stretches {b : Block} {below : List Block} (h : ¬ RunGoesOn [b] below) :
    Stretch.push b (stretches below) = Stretch.push b [] ++ stretches below := by
  cases b with
  | gloss a =>
    cases below with
    | nil => rfl
    | cons c below =>
      -- the block below is no gloss, so it does not begin a run
      cases c with
      | gloss a' => exact absurd ⟨rfl, rfl⟩ h
      | _ => rfl
  | _ => rfl

/-- **Runs are gathered part by part**, if none goes on from one to the other. -/
theorem stretches_append {above below : List Block} (h : ¬ RunGoesOn above below) :
    stretches (above ++ below) = stretches above ++ stretches below := by
  induction above with
  | nil => rfl
  | cons b above ih =>
    show Stretch.push b (stretches (above ++ below))
      = Stretch.push b (stretches above) ++ stretches below
    cases above with
    | nil => exact Stretch.push_stretches h
    | cons c above =>
      -- the last block is the same without the first one
      have hrest : ¬ RunGoesOn (c :: above) below := by
        intro hgoes
        refine h ⟨?_, hgoes.2⟩
        rw [List.getLast?_cons_cons]
        exact hgoes.1
      rw [ih hrest]
      exact Stretch.push_append b (Stretch.push_ne_nil c (stretches above)) _

variable {s : Settings}

theorem layout_append {above below : List Block} (h : ¬ RunGoesOn above below) :
    layout s (above ++ below) = (do
      let front ← layout s above
      let back ← layout s below
      pure (front ++ back)) := by
  unfold layout
  rw [stretches_append h, List.mapM_append]
  simp only [bind_assoc, pure_bind, List.flatten_append]

/-! ## §2. Runs. -/

/-- Stretches that are the same block, or runs that have the same stream. -/
inductive Stretch.Alike : Stretch → Stretch → Prop where
  /-- A block. -/
  | block (b : Block) : Alike (.block b) (.block b)
  /-- A run, cut into glosses in one way or another. -/
  | run {glosses glosses' : List Gloss} (h : stream glosses = stream glosses') :
    Alike (.run glosses) (.run glosses')

theorem Stretch.Alike.columns_eq {r r' : Stretch} (h : r.Alike r') : r.columns s = r'.columns s := by
  cases h with
  | block b => rfl
  | run h =>
    show runColumns s _ = runColumns s _
    unfold runColumns
    rw [h]

/-- A block more keeps stretches alike. -/
theorem Stretch.alike_push (b : Block) {rs rs' : List Stretch} (h : List.Forall₂ Alike rs rs') :
    List.Forall₂ Alike (push b rs) (push b rs') := by
  cases b with
  | gloss a =>
    cases h with
    | nil => exact .cons (.run rfl) .nil
    | cons hfirst hrest =>
      cases hfirst with
      | block b => exact .cons (.run rfl) (.cons (.block b) hrest)
      | run hstream =>
        refine .cons (.run ?_) hrest
        rw [stream, stream, List.flatMap_cons, List.flatMap_cons]
        exact congrArg _ hstream
  | _ => exact .cons (.block _) h

/-- Blocks above stretches that are alike keep them alike. -/
theorem alike_stretches_append (above : List Block) {below below' : List Block}
    (h : List.Forall₂ Stretch.Alike (stretches below) (stretches below')) :
    List.Forall₂ Stretch.Alike (stretches (above ++ below)) (stretches (above ++ below')) := by
  induction above with
  | nil => exact h
  | cons b above ih => exact Stretch.alike_push b ih

theorem mapM_columns_eq {rs rs' : List Stretch} (h : List.Forall₂ Stretch.Alike rs rs') :
    rs.mapM (Stretch.columns s) = rs'.mapM (Stretch.columns s) := by
  induction h with
  | nil => rfl
  | cons hfirst _ ih => rw [List.mapM_cons, List.mapM_cons, hfirst.columns_eq, ih]

/-- A run takes the glosses in with which the blocks below it begin. -/
theorem exists_stretches_run (below : List Block) :
    ∃ (opening : List Gloss) (rest : List Stretch), ∀ run : List Gloss, run ≠ [] →
      stretches (run.map .gloss ++ below) = .run (run ++ opening) :: rest := by
  -- one more gloss in front lengthens the run
  have longer : ∀ {opening : List Gloss} {rest : List Stretch},
      (∀ a, Stretch.push (.gloss a) (stretches below) = .run (a :: opening) :: rest) →
        ∀ run : List Gloss, run ≠ [] →
          stretches (run.map .gloss ++ below) = .run (run ++ opening) :: rest := by
    intro opening rest hone run hne
    induction run with
    | nil => exact absurd rfl hne
    | cons a run ih =>
      cases run with
      | nil => exact hone a
      | cons a' run =>
        show Stretch.push (.gloss a) (stretches ((a' :: run).map .gloss ++ below)) = _
        rw [ih (List.cons_ne_nil a' run)]
        rfl
  rcases hbelow : stretches below with _ | ⟨⟨b⟩ | ⟨glosses⟩, rest⟩
  · exact ⟨[], [], longer fun a => by rw [hbelow]; rfl⟩
  · exact ⟨[], .block b :: rest, longer fun a => by rw [hbelow]; rfl⟩
  · exact ⟨glosses, rest, longer fun a => by rw [hbelow]; rfl⟩

/-- **Of a run only the stream counts.** -/
theorem layout_congr_run {run run' : List Gloss} (hne : run ≠ []) (hne' : run' ≠ [])
    (hstream : stream run = stream run') (above below : List Block) :
    layout s (above ++ run.map .gloss ++ below) = layout s (above ++ run'.map .gloss ++ below) := by
  obtain ⟨opening, rest, hrun⟩ := exists_stretches_run below
  have hsame : List.Forall₂ Stretch.Alike (stretches (run.map .gloss ++ below))
      (stretches (run'.map .gloss ++ below)) := by
    rw [hrun run hne, hrun run' hne']
    refine .cons (.run ?_) (List.forall₂_same.2 fun r _ => ?_)
    · rw [stream, stream, List.flatMap_append, List.flatMap_append]
      exact congrArg (· ++ _) hstream
    · cases r with
      | block b => exact .block b
      | run glosses => exact .run rfl
  unfold layout
  rw [List.append_assoc, List.append_assoc, mapM_columns_eq (alike_stretches_append above hsame)]

/-! ## §3. The layout. -/

/-- **A book can be laid out in parts.**  Where no run of glosses goes on from one part to
the next, both together have a layout exactly if each of them has one, and it is these two,
one behind the other.  And a run can be replaced, wherever it stands, by any other of the
same stream: there are the same columns, or there is the same failure. -/
theorem layout_by_parts (s : Settings) (above below : List Block) :
    (¬ RunGoesOn above below → ∀ columns, layout s (above ++ below) = .ok columns ↔
        ∃ front back, layout s above = .ok front ∧ layout s below = .ok back
          ∧ columns = front ++ back)
      ∧ ∀ run run' : List Gloss, run ≠ [] → run' ≠ [] → stream run = stream run' →
        layout s (above ++ run.map .gloss ++ below)
          = layout s (above ++ run'.map .gloss ++ below) := by
  constructor
  · intro hparted columns
    rw [layout_append hparted]
    constructor
    · intro h
      obtain ⟨front, hfront, h⟩ := bind_eq_ok.1 h
      obtain ⟨back, hback, h⟩ := bind_eq_ok.1 h
      cases h
      exact ⟨front, back, hfront, hback, rfl⟩
    · rintro ⟨front, back, hfront, hback, rfl⟩
      rw [hfront, hback]
      rfl
  · intro run run' hne hne' hstream
    exact layout_congr_run hne hne' hstream above below

/-- A part of a book that ends with a gloss. -/
def partAbove : List Block :=
  [.chapter (utf8 "經部"), .gloss { text := utf8 "甲乙", indent := 2 }]

/-- A part that begins with a line of text, and a gloss below it. -/
def partBelow : List Block :=
  [.text (utf8 "丙") 0, .gloss { text := utf8 "丁", indent := 4 }]

/-- Two glosses at different indents. -/
def twoGlosses : List Gloss :=
  [{ text := utf8 "戊", indent := 2 }, { text := utf8 "己", indent := 4 }]

/-- One gloss of two segments. -/
def oneGloss : List Gloss :=
  [{ text := utf8 "戊己", indent := 2, segments := [⟨utf8 "戊", 0, false⟩, ⟨utf8 "己", 2, false⟩] }]

/-- The parts are laid out one behind the other; and put between them, one gloss flows on
behind the one above as two glosses would. -/
theorem layout_partBelow :
    let s : Settings := { Settings.standard with width := 5 }
    (¬ RunGoesOn partAbove partBelow
        ∧ layout s (partAbove ++ partBelow)
          = .ok ([.chapter (utf8 "經部"), .dual { indent := 2, right := utf8 "甲乙" }]
            ++ [.single (utf8 "丙") 0, .dual { indent := 4, right := utf8 "丁" }]))
      ∧ twoGlosses ≠ [] ∧ oneGloss ≠ [] ∧ stream twoGlosses = stream oneGloss
      ∧ layout s (partAbove ++ twoGlosses.map .gloss ++ partBelow)
        = layout s (partAbove ++ oneGloss.map .gloss ++ partBelow) := by
  intro s
  obtain ⟨hparts, hruns⟩ := layout_by_parts s partAbove partBelow
  have hparted : ¬ RunGoesOn partAbove partBelow := by decide
  have hstream : stream twoGlosses = stream oneGloss := by decide +kernel
  refine ⟨⟨hparted, ?_⟩, by decide, by decide, hstream, ?_⟩
  · exact (hparts hparted _).2 ⟨_, _, by decide +kernel, by decide +kernel, rfl⟩
  · exact hruns twoGlosses oneGloss (by decide) (by decide) hstream

end FolioGrid
