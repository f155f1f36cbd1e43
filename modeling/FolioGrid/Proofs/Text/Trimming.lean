/-
  FolioGrid.Proofs.Text.Trimming
  ────────────────────────────────
  **TRIMMING TAKES ALL THAT IS BLANK, AND NO MORE.**

  What trimming leaves has no blank at either end (`Clear`), and what has none is left as
  it is (`trim_eq_self_iff`).  So of all ways to take blanks off the two ends of a text
  there is one that leaves none, and this is what trimming does, from whichever end it
  begins (`trimRight_trimLeft`).

  No text has to be well formed for this: a byte that would belong to the ideographic
  space, but stands there alone, is not white.

  Main result: `trim_maximal`.
-/
import FolioGrid.Proofs.Text.Blank

namespace FolioGrid.Text

variable {t u v : Text}

/-! ## §1. A blank at an end. -/

/-- One blank. -/
inductive Blank : Text → Prop where
  /-- An ASCII whitespace byte. -/
  | space {b : UInt8} (hb : isSpace b = true) : Blank [b]
  /-- The ideographic space. -/
  | wide : Blank wideSpace

/-- A text at whose two ends no blank stands. -/
structure Clear (t : Text) : Prop where
  /-- None stands in front. -/
  head : ∀ k, Blank k → ¬ k <+: t
  /-- None stands behind. -/
  last : ∀ k, Blank k → ¬ k <:+ t

theorem Blank.ne_nil {k : Text} (h : Blank k) : k ≠ [] := by
  cases h with
  | space hb => exact List.cons_ne_nil _ _
  | wide => exact List.cons_ne_nil _ _

theorem Blank.blanks {k : Text} (h : Blank k) : Blanks wideSpace k := by
  cases h with
  | space hb => exact .space hb .nil
  | wide => exact .wide .nil

/-- Blanks begin with one. -/
theorem Blanks.exists_prefix (hu : Blanks wideSpace u) (hne : u ≠ []) :
    ∃ k, Blank k ∧ k <+: u := by
  cases hu with
  | nil => exact absurd rfl hne
  | @space b u hb _ => exact ⟨[b], .space hb, List.prefix_append [b] u⟩
  | wide _ => exact ⟨wideSpace, .wide, List.prefix_append _ _⟩

/-- And they end with one. -/
theorem Blanks.exists_suffix (hu : Blanks wideSpace u) (hne : u ≠ []) :
    ∃ k, Blank k ∧ k <:+ u := by
  -- the last blank is that of what follows the first one, or the first one itself
  have last : ∀ {k v : Text}, Blank k → (v ≠ [] → ∃ k', Blank k' ∧ k' <:+ v) →
      ∃ k', Blank k' ∧ k' <:+ k ++ v := by
    intro k v hk hv
    by_cases hnil : v = []
    · rw [hnil, List.append_nil]
      exact ⟨k, hk, List.suffix_refl k⟩
    · obtain ⟨k', hk', hends⟩ := hv hnil
      exact ⟨k', hk', hends.trans (List.suffix_append k v)⟩
  induction hu with
  | nil => exact absurd rfl hne
  | space hb _ ih => exact last (.space hb) ih
  | wide _ ih => exact last .wide ih

/-! ## §2. What is left alone. -/

/-- A text that is left alone has no blank at its ends: it would be shorter without. -/
theorem clear_of_trim_eq (h : trim t = t) : Clear t := by
  have shorter : ∀ k r : Text, Blank k → trim t = trim r → t.length ≠ k.length + r.length := by
    intro k r hk hr hlength
    have hle := (trim_isInfix r).length_le
    have hpos := List.length_pos_iff.2 hk.ne_nil
    rw [← hr, h] at hle
    omega
  constructor
  · rintro k hk ⟨r, rfl⟩
    exact shorter k r hk (trim_blanks_append hk.blanks r) List.length_append
  · rintro k hk ⟨r, rfl⟩
    refine shorter k r hk (trim_append_blanks hk.blanks r) ?_
    rw [List.length_append, Nat.add_comm]

/-- **A text is left alone exactly if no blank stands at its ends.** -/
theorem trim_eq_self_iff : trim t = t ↔ Clear t := by
  refine ⟨clear_of_trim_eq, fun hclear => ?_⟩
  obtain ⟨u, v, hu, hv, ht⟩ := exists_blanks_trim t
  have hfront : u = [] := by
    by_contra hne
    obtain ⟨k, hk, hbegins⟩ := hu.exists_prefix hne
    refine hclear.head k hk (hbegins.trans ?_)
    rw [← ht, List.append_assoc]
    exact List.prefix_append u _
  have hback : v = [] := by
    by_contra hne
    obtain ⟨k, hk, hends⟩ := hv.exists_suffix hne
    refine hclear.last k hk (hends.trans ?_)
    rw [← ht]
    exact List.suffix_append _ v
  rw [hfront, hback, List.nil_append, List.append_nil] at ht
  exact ht

/-- Between blanks stands only one text that is clear of them. -/
theorem trim_of_clear {m : Text} (hu : Blanks wideSpace u) (hv : Blanks wideSpace v)
    (hm : Clear m) : trim (u ++ m ++ v) = m := by
  rw [trim_append_blanks hv, trim_blanks_append hu, trim_eq_self_iff.2 hm]

/-! ## §3. From either end. -/

/-- What is trimmed at both ends has nothing to be trimmed at the right one. -/
theorem trimRight_trim (t : Text) : trimRight (trim t) = trim t := by
  obtain ⟨v, hv, ht⟩ := exists_blanks_trimRight (trim t)
  have hlength := congrArg List.length ht
  have hle := (trim_isInfix (trimRight (trim t))).length_le
  rw [trim_trimRight, trim_trim] at hle
  rw [List.length_append] at hlength
  rw [List.eq_nil_of_length_eq_zero (show v.length = 0 by omega), List.append_nil] at ht
  exact ht

theorem trimLeft_append_blanks (hv : Blanks wideSpace v) (t : Text) :
    trimLeft (t ++ v) = if trimLeft t = [] then [] else trimLeft t ++ v :=
  dropBlanks_append_blanks (by decide +kernel) (by decide) hv t

/-- **It does not matter which end is trimmed first.** -/
theorem trimRight_trimLeft (t : Text) : trimRight (trimLeft t) = trim t := by
  obtain ⟨v, hv, ht⟩ := exists_blanks_trimRight t
  have hleft : trimLeft t = if trim t = [] then [] else trim t ++ v := by
    conv => lhs; rw [← ht]
    exact trimLeft_append_blanks hv (trimRight t)
  rw [hleft]
  split
  · next hblank =>
    rw [hblank]
    rfl
  · rw [trimRight_append_blanks hv, trimRight_trim]

/-- **Trimming takes off exactly the blanks at the two ends.**  A text is its trimmed form
between blanks, and that form has none at its ends; it comes out from whichever end the
blanks are taken off, and again if it is trimmed once more; more blanks around a text make no
difference; and no other text that is clear of blanks at its ends stands between blanks
there. -/
theorem trim_maximal (t : Text) :
    (∃ u v, Blanks wideSpace u ∧ Blanks wideSpace v ∧ t = u ++ trim t ++ v)
      ∧ (∀ k, Blank k → ¬ k <+: trim t ∧ ¬ k <:+ trim t)
      ∧ trimLeft (trimRight t) = trim t
      ∧ trimRight (trimLeft t) = trim t
      ∧ trim (trim t) = trim t
      ∧ (∀ x y, Blanks wideSpace x → Blanks wideSpace y → trim (x ++ t ++ y) = trim t)
      ∧ ∀ x m y, Blanks wideSpace x → Blanks wideSpace y → Clear m → t = x ++ m ++ y →
          m = trim t := by
  have hclear : Clear (trim t) := clear_of_trim_eq (trim_trim t)
  refine ⟨?_, fun k hk => ⟨hclear.head k hk, hclear.last k hk⟩, rfl, trimRight_trimLeft t,
    trim_trim t, ?_, ?_⟩
  · obtain ⟨u, v, hu, hv, ht⟩ := exists_blanks_trim t
    exact ⟨u, v, hu, hv, ht.symm⟩
  · intro x y hx hy
    rw [trim_append_blanks hy, trim_blanks_append hx]
  · rintro x m y hx hy hm rfl
    exact (trim_of_clear hx hy hm).symm

/-- A character between bytes of ideographic spaces of which the rest is missing. -/
def strayBytes : Text := 0x80 :: utf8 "甲" ++ [0xE3, 0x80]

/-- The same between blanks, whose bytes stand next to the stray ones. -/
def spacedBytes : Text := utf8 " \u3000" ++ strayBytes ++ utf8 "\u3000\t"

/-- The blanks go and the stray bytes stay. -/
theorem trim_spacedBytes :
    Blank wideSpace ∧ ¬ wideSpace <+: trim spacedBytes ∧ ¬ wideSpace <:+ trim spacedBytes
      ∧ Blanks wideSpace (utf8 " \u3000") ∧ Blanks wideSpace (utf8 "\u3000\t")
      ∧ trim (utf8 " \u3000" ++ spacedBytes ++ utf8 "\u3000\t") = trim spacedBytes
      ∧ Clear strayBytes ∧ strayBytes = trim spacedBytes := by
  have hfront : Blanks wideSpace (utf8 " \u3000") := .space (by decide) (.wide .nil)
  have hback : Blanks wideSpace (utf8 "\u3000\t") := .wide (.space (by decide) .nil)
  have hclear : Clear strayBytes := clear_of_trim_eq (by decide +kernel)
  obtain ⟨-, hends, -, -, -, hmore, honly⟩ := trim_maximal spacedBytes
  exact ⟨.wide, (hends _ .wide).1, (hends _ .wide).2, hfront, hback, hmore _ _ hfront hback, hclear,
    honly _ _ _ hfront hback hclear rfl⟩

end FolioGrid.Text
