/-
  FolioGrid.Proofs.Failure
  ────────────────────────────────
  **COMPUTATIONS THAT MAY FAIL.**

  How a sequence of steps that succeeds is taken apart (`bind_eq_ok`,
  `flatMap_of_mapM`, `exists_of_mem_mapM`), and what is printed where
  the grid has no room (`message_noRoom`).
-/
import FolioGrid.Failure
import FolioGrid.Proofs.Text.Numeral
import Mathlib.Data.List.TakeWhile

namespace FolioGrid

open FolioGrid.Text

/-! ## §1. Steps that succeed. -/

section

variable {α β γ ε : Type}

/-- Two steps succeed if the first one does, and the second one on its result. -/
theorem bind_eq_ok {x : Except ε α} {f : α → Except ε β} {b : β} :
    (x >>= f) = .ok b ↔ ∃ a, x = .ok a ∧ f a = .ok b := by
  cases x with
  | error e =>
    constructor
    · intro h
      cases h
    · rintro ⟨a, h, -⟩
      cases h
  | ok a =>
    constructor
    · intro h
      exact ⟨a, rfl, h⟩
    · rintro ⟨a', h, hf⟩
      cases h
      exact hf

/-- What each step yields from its element, all steps together yield from the
list. -/
theorem flatMap_of_mapM {f : α → Except ε β} {g : β → List γ} {h : α → List γ} :
    ∀ {l : List α} {out : List β}, l.mapM f = .ok out →
      (∀ a ∈ l, ∀ b, f a = .ok b → g b = h a) → out.flatMap g = l.flatMap h
  | [], out, hout, _ => by
    cases hout
    rfl
  | a :: l, out, hout, hstep => by
    rw [List.mapM_cons] at hout
    obtain ⟨b, hb, hout⟩ := bind_eq_ok.1 hout
    obtain ⟨bs, hbs, hout⟩ := bind_eq_ok.1 hout
    cases hout
    rw [List.flatMap_cons, List.flatMap_cons, hstep a List.mem_cons_self b hb,
      flatMap_of_mapM hbs fun a' ha' => hstep a' (List.mem_cons_of_mem a ha')]

/-- Each result of the steps is the result of one. -/
theorem exists_of_mem_mapM {f : α → Except ε β} :
    ∀ {l : List α} {out : List β}, l.mapM f = .ok out → ∀ b ∈ out, ∃ a ∈ l, f a = .ok b
  | [], out, hout => by
    cases hout
    simp
  | a :: l, out, hout => by
    rw [List.mapM_cons] at hout
    obtain ⟨b, hb, hout⟩ := bind_eq_ok.1 hout
    obtain ⟨bs, hbs, hout⟩ := bind_eq_ok.1 hout
    cases hout
    intro c hc
    rcases List.mem_cons.1 hc with rfl | hc
    · exact ⟨a, List.mem_cons_self, hb⟩
    · obtain ⟨a', ha', hfa'⟩ := exists_of_mem_mapM hbs c hc
      exact ⟨a', List.mem_cons_of_mem a ha', hfa'⟩

/-- What holds of all that each step yields, holds of all that they yield
together. -/
theorem forall_mem_flatten_of_mapM {f : α → Except ε (List β)} {p : β → Prop} {l : List α}
    {out : List (List β)} (hout : l.mapM f = .ok out)
    (hstep : ∀ a ∈ l, ∀ bs, f a = .ok bs → ∀ b ∈ bs, p b) : ∀ b ∈ out.flatten, p b := by
  intro b hb
  obtain ⟨bs, hbs, hb⟩ := List.mem_flatten.1 hb
  obtain ⟨a, ha, hfa⟩ := exists_of_mem_mapM hout bs hbs
  exact hstep a ha bs hfa b hb

end

/-! ## §2. Messages. -/

/-- No message about room holds a NUL, so all of it is shown. -/
theorem message_noRoom (indent width : Int) :
    (Failure.noRoom indent width).message
      = utf8 "indent " ++ decimal indent ++ utf8 " leaves no room in a column of "
        ++ decimal width ++ utf8 " characters" := by
  -- the numbers are digits and signs, the words between them are known
  have hdecimal : ∀ i : Int, ∀ b ∈ decimal i, b ≠ 0 := by
    intro i b hb h0
    rw [h0] at hb
    exact absurd (mem_decimal hb) (by decide)
  have hliteral : ∀ b ∈ utf8 "indent " ++ utf8 " leaves no room in a column of "
      ++ utf8 " characters", b ≠ 0 := by decide +kernel
  show printable _ = _
  unfold printable
  rw [List.takeWhile_eq_self_iff]
  intro b hb
  simp only [List.mem_append] at hb hliteral
  rcases hb with (((hb | hb) | hb) | hb) | hb
  · simpa using hliteral b (Or.inl (Or.inl hb))
  · simpa using hdecimal indent b hb
  · simpa using hliteral b (Or.inl (Or.inr hb))
  · simpa using hdecimal width b hb
  · simpa using hliteral b (Or.inr hb)

end FolioGrid
