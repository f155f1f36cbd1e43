/-
  FolioGrid.Proofs.Text.Blank
  ────────────────────────────────
  **TRIMMING, AND TEXTS WITHOUT BLANKS.**

  Trimming takes a text of blanks (`Blanks`) off each end (`exists_blanks_trim`)
  and leaves a text alone whose first and last byte are no part of a blank.  A
  text without any blank (`Solid`) is left alone by all that looks for blanks.
  Where all blanks are removed, a text may be cut first, as long as no blank is
  (`removeBlanks_append`).
-/
import FolioGrid.Text.Blank
import FolioGrid.Proofs.Text.Occurrence

namespace FolioGrid.Text

/-! ## §1. Blanks. -/

/-- Blanks one behind the other, where `wide` spells the three-byte one. -/
inductive Blanks (wide : Text) : Text → Prop where
  /-- No blank. -/
  | nil : Blanks wide []
  /-- An ASCII whitespace byte and more. -/
  | space {b : UInt8} {t : Text} (hb : isSpace b = true) (ht : Blanks wide t) : Blanks wide (b :: t)
  /-- A three-byte blank and more. -/
  | wide {t : Text} (ht : Blanks wide t) : Blanks wide (wide ++ t)

/-- White bytes are blanks. -/
theorem Blanks.of_isSpace {wide u : Text} (h : ∀ b ∈ u, isSpace b = true) : Blanks wide u := by
  induction u with
  | nil => exact .nil
  | cons b u ih =>
    rw [List.forall_mem_cons] at h
    exact .space h.1 (ih h.2)

/-- Blanks behind blanks are blanks. -/
theorem Blanks.append {wide u v : Text} (hu : Blanks wide u) (hv : Blanks wide v) :
    Blanks wide (u ++ v) := by
  induction hu with
  | nil => exact hv
  | space hb _ ih => exact .space hb ih
  | wide _ ih =>
    rw [List.append_assoc]
    exact .wide ih

/-- A byte of blanks is a space or one of the wide blank's. -/
theorem Blanks.mem {wide u : Text} (hu : Blanks wide u) {b : UInt8} (hb : b ∈ u) :
    isSpace b = true ∨ b ∈ wide := by
  induction hu with
  | nil => cases hb
  | space hspace _ ih =>
    rcases List.mem_cons.1 hb with rfl | hb
    · exact Or.inl hspace
    · exact ih hb
  | wide _ ih =>
    rcases List.mem_append.1 hb with hb | hb
    · exact Or.inr hb
    · exact ih hb

/-- Blanks share no byte with a pattern that has none of theirs. -/
theorem Blanks.not_mem {wide u p : Text} (hu : Blanks wide u)
    (hp : ∀ b ∈ p, isSpace b = false ∧ b ∉ wide) : ∀ b ∈ u, b ∉ p := by
  intro b hb hmem
  rcases hu.mem hb with hspace | hwide
  · rw [(hp b hmem).1] at hspace
    cases hspace
  · exact (hp b hmem).2 hwide

/-- Read from the end, blanks are blanks whose wide one is reversed. -/
theorem Blanks.reverse {wide u : Text} (hu : Blanks wide u) : Blanks wide.reverse u.reverse := by
  induction hu with
  | nil => exact .nil
  | space hb _ ih =>
    rw [List.reverse_cons]
    exact ih.append (.space hb .nil)
  | wide _ ih =>
    rw [List.reverse_append]
    have hone : Blanks wide.reverse (wide.reverse ++ []) := .wide .nil
    rw [List.append_nil] at hone
    exact ih.append hone

/-- What is dropped in front of a text is blanks. -/
theorem exists_blanks_dropBlanks (wide t : Text) :
    ∃ u, Blanks wide u ∧ u ++ dropBlanks wide t = t := by
  fun_induction dropBlanks wide t with
  | case1 => exact ⟨[], .nil, rfl⟩
  | case2 a rest hspace ih =>
    obtain ⟨u, hu, ht⟩ := ih
    exact ⟨a :: u, .space hspace hu, by rw [List.cons_append, ht]⟩
  | case3 a hspace b c after hwide ih =>
    obtain ⟨u, hu, ht⟩ := ih
    refine ⟨wide ++ u, .wide hu, ?_⟩
    rw [List.append_assoc, ht, hwide]
    rfl
  | case4 a hspace b c after hwide => exact ⟨[], .nil, rfl⟩
  | case5 a rest hspace hshort => exact ⟨[], .nil, rfl⟩

/-- Nothing is dropped where no blank stands at the head. -/
theorem dropBlanks_eq_self {wide rest : Text} {a : UInt8} (ha : isSpace a = false)
    (hwide : ¬ wide <+: a :: rest) : dropBlanks wide (a :: rest) = a :: rest := by
  unfold dropBlanks
  rw [if_neg (by simp [ha])]
  split
  · next b c after =>
    -- three bytes are there to be compared with the wide blank
    rw [if_neg]
    intro h
    exact hwide ⟨after, by rw [h]; rfl⟩
  · rfl

/-! ## §2. Trimming. -/

/-- The blanks behind a text. -/
theorem exists_blanks_trimRight (t : Text) : ∃ v, Blanks wideSpace v ∧ trimRight t ++ v = t := by
  obtain ⟨u, hu, ht⟩ := exists_blanks_dropBlanks wideSpace.reverse t.reverse
  have hv := hu.reverse
  rw [List.reverse_reverse] at hv
  refine ⟨u.reverse, hv, ?_⟩
  unfold trimRight
  rw [← List.reverse_append, ht, List.reverse_reverse]

/-- A text is its trimmed form between blanks. -/
theorem exists_blanks_trim (t : Text) :
    ∃ u v, Blanks wideSpace u ∧ Blanks wideSpace v ∧ u ++ trim t ++ v = t := by
  obtain ⟨v, hv, ht⟩ := exists_blanks_trimRight t
  obtain ⟨u, hu, htrim⟩ := exists_blanks_dropBlanks wideSpace (trimRight t)
  refine ⟨u, v, hu, hv, ?_⟩
  rw [show u ++ trim t = trimRight t from htrim, ht]

section

variable {a b c : UInt8} {u : Text}

theorem dropBlanks_cons_of_isSpace (ha : isSpace a = true) (wide t : Text) :
    dropBlanks wide (a :: t) = dropBlanks wide t := by
  conv => lhs; unfold dropBlanks
  rw [if_pos ha]

/-- Blanks in front of a text are dropped. -/
theorem dropBlanks_blanks_append (ha : isSpace a = false) (hu : Blanks [a, b, c] u) (t : Text) :
    dropBlanks [a, b, c] (u ++ t) = dropBlanks [a, b, c] t := by
  induction hu with
  | nil => rfl
  | space hb _ ih => rw [List.cons_append, dropBlanks_cons_of_isSpace hb, ih]
  | wide _ ih =>
    rw [List.append_assoc, ← ih]
    conv => lhs; unfold dropBlanks
    simp [ha]

/-- Blanks start with one of the two. -/
theorem Blanks.isSpace_or_prefix {wide : Text} (hu : Blanks wide (a :: u)) :
    isSpace a = true ∨ wide <+: a :: u := by
  generalize hau : a :: u = w at hu
  cases hu with
  | nil => cases hau
  | space hb _ =>
    cases hau
    exact Or.inl hb
  | wide _ => exact Or.inr (List.prefix_append _ _)

/-- Blanks behind a text are dropped from the front only with all of it, for no
byte of the wide blank is white, and the wide blank does not end as it starts. -/
theorem dropBlanks_append_blanks (hspace : ∀ x ∈ [a, b, c], isSpace x = false) (hends : a ≠ c)
    (hu : Blanks [a, b, c] u) (t : Text) : dropBlanks [a, b, c] (t ++ u)
      = if dropBlanks [a, b, c] t = [] then [] else dropBlanks [a, b, c] t ++ u := by
  have hhead : ∀ {x : UInt8} {w : Text}, x ∈ [a, b, c] → u = x :: w → [a, b, c] <+: x :: w := by
    rintro x w hx rfl
    refine hu.isSpace_or_prefix.resolve_left fun hwhite => ?_
    rw [hspace x hx] at hwhite
    cases hwhite
  fun_induction dropBlanks [a, b, c] t with
  | case1 =>
    have hnone := dropBlanks_blanks_append (hspace a List.mem_cons_self) hu []
    rwa [List.append_nil] at hnone
  | case2 x rest hx ih =>
    rw [List.cons_append, dropBlanks_cons_of_isSpace hx]
    exact ih
  | case3 x hx y z after hwide ih => simpa [dropBlanks, hx, ← hwide] using ih
  | case4 x hx y z after hwide => simp [dropBlanks, hx, hwide]
  | case5 x rest hx hshort =>
    -- one byte or two are left, so that a wide blank across the seam would have
    -- the first byte of a blank as its second or as its third
    rw [if_neg (List.cons_ne_nil x rest), List.cons_append,
      dropBlanks_eq_self (Bool.eq_false_iff.2 hx)]
    rintro ⟨more, hmore⟩
    obtain ⟨rfl, htail⟩ := List.cons.inj hmore
    cases rest with
    | nil =>
      have hwide := hhead (by simp) htail.symm
      obtain ⟨rfl, hwide⟩ := List.cons_prefix_cons.1 hwide
      exact hends (List.cons_prefix_cons.1 hwide).1
    | cons y rest =>
      cases rest with
      | nil =>
        have hwide := hhead (by simp) (List.cons.inj htail).2.symm
        exact hends (List.cons_prefix_cons.1 hwide).1
      | cons z rest => exact absurd rfl (hshort y z rest)

/-- No byte is dropped at or behind one that is no part of a blank. -/
theorem dropBlanks_append_cons {e : UInt8} (he : isSpace e = false) (hwide : e ∉ [a, b, c])
    (t u : Text) : dropBlanks [a, b, c] (t ++ e :: u) = dropBlanks [a, b, c] t ++ e :: u := by
  have hself : ∀ {x : UInt8} {v : Text}, ¬ isSpace x = true → ¬ [a, b, c] <+: x :: v →
      dropBlanks [a, b, c] (x :: v ++ e :: u) = x :: v ++ e :: u := by
    intro x v hx hprefix
    rw [List.cons_append, dropBlanks_eq_self (Bool.eq_false_iff.2 hx)]
    rw [← List.cons_append, prefix_append_cons_iff hwide]
    exact hprefix
  fun_induction dropBlanks [a, b, c] t with
  | case1 =>
    refine dropBlanks_eq_self he fun h => hwide ?_
    rw [← (List.cons_prefix_cons.1 h).1]
    exact List.mem_cons_self
  | case2 x rest hx ih => rw [List.cons_append, dropBlanks_cons_of_isSpace hx, ih]
  | case3 x hx y z after heq ih => simpa [dropBlanks, hx, ← heq] using ih
  | case4 x hx y z after heq =>
    refine hself hx fun h => heq ?_
    simpa using h
  | case5 x rest hx hshort =>
    refine hself hx fun ⟨more, hmore⟩ => ?_
    exact hshort b c more (List.cons.inj hmore).2.symm

end

section

variable {u v : Text}

/-- Blanks behind a text make no difference once they are trimmed there. -/
theorem trimRight_append_blanks (hv : Blanks wideSpace v) (t : Text) :
    trimRight (t ++ v) = trimRight t := by
  unfold trimRight
  rw [List.reverse_append]
  exact congrArg List.reverse (dropBlanks_blanks_append (by decide) hv.reverse t.reverse)

/-- Blanks in front are kept by trimming at the end, unless nothing else is left. -/
theorem trimRight_blanks_append (hu : Blanks wideSpace u) (t : Text) :
    trimRight (u ++ t) = if trimRight t = [] then [] else u ++ trimRight t := by
  have hdrop : dropBlanks wideSpace.reverse (t.reverse ++ u.reverse)
      = if dropBlanks wideSpace.reverse t.reverse = [] then []
        else dropBlanks wideSpace.reverse t.reverse ++ u.reverse :=
    dropBlanks_append_blanks (by decide +kernel) (by decide) hu.reverse t.reverse
  unfold trimRight
  rw [List.reverse_append, hdrop]
  by_cases hblank : dropBlanks wideSpace.reverse t.reverse = []
  · rw [if_pos hblank, if_pos (List.reverse_eq_nil_iff.2 hblank)]
    rfl
  · rw [if_neg hblank, if_neg (mt List.reverse_eq_nil_iff.1 hblank), List.reverse_append,
      List.reverse_reverse]

/-- Behind a byte that is no part of a blank, blanks are trimmed as if it were not
there. -/
theorem trimRight_append_cons {a : UInt8} (ha : isSpace a = false) (hwide : a ∉ wideSpace)
    (t u : Text) : trimRight (t ++ a :: u) = t ++ a :: trimRight u := by
  have hdrop : dropBlanks wideSpace.reverse (u.reverse ++ a :: t.reverse)
      = dropBlanks wideSpace.reverse u.reverse ++ a :: t.reverse :=
    dropBlanks_append_cons ha (by rwa [← List.mem_reverse] at hwide) u.reverse t.reverse
  unfold trimRight
  rw [List.reverse_append, List.reverse_cons, List.append_assoc, List.singleton_append, hdrop]
  simp

/-- Blanks in front of a text make no difference once it is trimmed. -/
theorem trim_blanks_append (hu : Blanks wideSpace u) (t : Text) : trim (u ++ t) = trim t := by
  unfold trim
  rw [trimRight_blanks_append hu]
  split
  · next hblank => rw [hblank]
  · exact dropBlanks_blanks_append (by decide) hu _

/-- Nor do blanks behind it. -/
theorem trim_append_blanks (hv : Blanks wideSpace v) (t : Text) : trim (t ++ v) = trim t :=
  congrArg trimLeft (trimRight_append_blanks hv t)

end

/-- What is left by trimming stands in the text in one piece. -/
theorem trim_isInfix (t : Text) : trim t <:+: t := by
  obtain ⟨u, v, -, -, ht⟩ := exists_blanks_trim t
  exact ⟨u, v, ht⟩

/-- What has been trimmed stays as it is. -/
theorem trim_trim (t : Text) : trim (trim t) = trim t := by
  obtain ⟨u, v, hu, hv, ht⟩ := exists_blanks_trim t
  conv => rhs; rw [← ht, List.append_assoc, trim_blanks_append hu, trim_append_blanks hv]

theorem trim_cons_of_isSpace {b : UInt8} (hb : isSpace b = true) (t : Text) :
    trim (b :: t) = trim t := trim_blanks_append (.space hb .nil) t

/-- Spaces that are dropped first would be trimmed anyway. -/
theorem trim_dropWhile_isSpace (t : Text) : trim (t.dropWhile isSpace) = trim t := by
  induction t with
  | nil => rfl
  | cons b t ih =>
    by_cases hb : isSpace b = true
    · rw [List.dropWhile_cons_of_pos hb, ih, trim_cons_of_isSpace hb]
    · rw [List.dropWhile_cons_of_neg hb]

/-- So would blanks at the end. -/
theorem trim_trimRight (t : Text) : trim (trimRight t) = trim t := by
  obtain ⟨v, hv, ht⟩ := exists_blanks_trimRight t
  conv => rhs; rw [← ht]
  exact (trim_append_blanks hv (trimRight t)).symm

/-- A byte that is no part of a blank is not trimmed away. -/
theorem trim_ne_nil_of_mem {t : Text} {b : UInt8} (hb : b ∈ t) (hspace : isSpace b = false)
    (hwide : b ∉ wideSpace) : trim t ≠ [] := by
  intro h
  obtain ⟨u, v, hu, hv, ht⟩ := exists_blanks_trim t
  rw [h, List.append_nil] at ht
  rw [← ht] at hb
  rcases (hu.append hv).mem hb with hb | hb
  · rw [hspace] at hb
    cases hb
  · exact hwide hb

/-- Blanks around a text hide no pattern and make none, if it has no byte of a blank. -/
theorem infix_append_blanks_iff {p t u v : Text} (hu : Blanks wideSpace u)
    (hv : Blanks wideSpace v) (hp : p ≠ []) (hblank : ∀ b ∈ p, isSpace b = false ∧ b ∉ wideSpace) :
    p <:+: u ++ t ++ v ↔ p <:+: t := by
  rw [← Decidable.not_iff_not, ← cut?_eq_none_iff, ← cut?_eq_none_iff,
    cut?_append_append hp (hu.not_mem hblank) (hv.not_mem hblank), Option.map_eq_none_iff]

/-- A pattern without blanks is found in a trimmed text exactly if it was there before. -/
theorem infix_trim_iff {p t : Text} (hp : p ≠ [])
    (hblank : ∀ b ∈ p, isSpace b = false ∧ b ∉ wideSpace) : p <:+: trim t ↔ p <:+: t := by
  obtain ⟨u, v, hu, hv, ht⟩ := exists_blanks_trim t
  conv => rhs; rw [← ht]
  exact (infix_append_blanks_iff hu hv hp hblank).symm

/-- Nothing is trimmed in front of a byte that no blank holds, -/
theorem trimLeft_eq_self_of_cons {a : UInt8} {t : Text} (ha : isSpace a = false)
    (hwide : a ∉ wideSpace) : trimLeft (a :: t) = a :: t := by
  refine dropBlanks_eq_self ha fun h => hwide ?_
  -- a wide blank in front would have this byte as its first
  rw [← (List.cons_prefix_cons.1 (show 0xE3 :: [0x80, 0x80] <+: a :: t from h)).1]
  exact List.mem_cons_self

/-- Between a byte that starts no blank and another, a text is trimmed behind the latter
only. -/
theorem trim_append_cons {t u : Text} {a b : UInt8} (hhead : t.head? = some b)
    (hb : isSpace b = false ∧ b ∉ wideSpace) (ha : isSpace a = false ∧ a ∉ wideSpace) :
    trim (t ++ a :: u) = t ++ a :: trimRight u := by
  obtain ⟨v, rfl⟩ := List.head?_eq_some_iff.1 hhead
  unfold trim
  rw [trimRight_append_cons ha.1 ha.2]
  exact trimLeft_eq_self_of_cons hb.1 hb.2

/-- or behind one. -/
theorem trimRight_eq_self_of_concat {b : UInt8} {t : Text} (hb : isSpace b = false)
    (hwide : b ∉ wideSpace) : trimRight (t ++ [b]) = t ++ [b] := by
  unfold trimRight
  rw [List.reverse_append, List.reverse_singleton, List.singleton_append,
    dropBlanks_eq_self hb, List.reverse_cons, List.reverse_reverse]
  -- the text is read backwards, and so would a wide blank at its end be
  intro h
  refine hwide ?_
  rw [← (List.cons_prefix_cons.1 (show 0x80 :: [0x80, 0xE3] <+: b :: t.reverse from h)).1]
  exact List.mem_cons_of_mem _ List.mem_cons_self

/-- A text that trimming leaves alone. -/
structure Trimmed (t : Text) : Prop where
  /-- No blank stands behind it. -/
  right : trimRight t = t
  /-- None stands at either end. -/
  both : trim t = t

/-- A text is trimmed if its first and its last byte are no part of a blank. -/
theorem trimmed_of_ends {t : Text} {a b : UInt8} (hhead : t.head? = some a)
    (hlast : t.getLast? = some b) (ha : isSpace a = false ∧ a ∉ wideSpace)
    (hb : isSpace b = false ∧ b ∉ wideSpace) : Trimmed t := by
  have hright : trimRight t = t := by
    obtain ⟨u, rfl⟩ := List.getLast?_eq_some_iff.1 hlast
    exact trimRight_eq_self_of_concat hb.1 hb.2
  refine ⟨hright, ?_⟩
  obtain ⟨u, rfl⟩ := List.head?_eq_some_iff.1 hhead
  unfold trim
  rw [hright]
  exact trimLeft_eq_self_of_cons ha.1 ha.2

/-! ## §3. Texts without blanks. -/

/-- A text without any blank. -/
structure Solid (t : Text) : Prop where
  /-- No byte is ASCII whitespace. -/
  space : ∀ b ∈ t, isSpace b = false
  /-- The ideographic space does not occur. -/
  wide : ¬ wideSpace <:+: t

theorem Solid.nil : Solid [] := ⟨fun _ h => absurd h List.not_mem_nil, by decide⟩

/-- Every part of a text without blanks is one. -/
theorem Solid.of_infix {t u : Text} (h : Solid t) (hu : u <:+: t) : Solid u :=
  ⟨fun b hb => h.space b (hu.mem hb), fun hwide => h.wide (hwide.trans hu)⟩

theorem Solid.lineFeed_not_mem {t : Text} (h : Solid t) : lineFeed ∉ t :=
  fun hmem => absurd (h.space lineFeed hmem) (by decide)

/-- Two texts without blanks around a byte that is no part of one. -/
theorem Solid.append_cons {t u : Text} {a : UInt8} (ht : Solid t) (ha : isSpace a = false)
    (hwide : a ∉ wideSpace) (hu : Solid u) : Solid (t ++ a :: u) := by
  refine ⟨?_, ?_⟩
  · intro b hb
    rcases List.mem_append.1 hb with hb | hb
    · exact ht.space b hb
    rcases List.mem_cons.1 hb with rfl | hb
    · exact ha
    · exact hu.space b hb
  · rw [infix_append_cons_iff hwide, not_or]
    exact ⟨ht.wide, hu.wide⟩

theorem Solid.trimLeft_eq {t : Text} (h : Solid t) : trimLeft t = t := by
  cases t with
  | nil => rfl
  | cons a t => exact dropBlanks_eq_self (h.space a List.mem_cons_self) fun hp => h.wide hp.isInfix

theorem Solid.trimRight_eq {t : Text} (h : Solid t) : trimRight t = t := by
  unfold trimRight
  cases hr : t.reverse with
  | nil =>
    rw [List.reverse_eq_nil_iff.1 hr]
    rfl
  | cons a u =>
    have ht : t = (a :: u).reverse := by rw [← hr, List.reverse_reverse]
    have ha : a ∈ t := by
      rw [ht]
      exact List.mem_reverse.2 List.mem_cons_self
    rw [dropBlanks_eq_self (h.space a ha), ← ht]
    -- a wide blank at the end would be one backwards at the head
    intro hp
    refine h.wide ?_
    rw [← List.reverse_infix, hr]
    exact hp.isInfix

/-- A text without blanks is not trimmed. -/
theorem Solid.trim_eq {t : Text} (h : Solid t) : trim t = t := by
  unfold trim
  rw [h.trimRight_eq, h.trimLeft_eq]

theorem Solid.trimmed {t : Text} (h : Solid t) : Trimmed t := ⟨h.trimRight_eq, h.trim_eq⟩

/-- Words behind a byte that is no part of a blank, and in front of it anything that
starts with no blank. -/
theorem Solid.trimmed_append_cons {t u : Text} {a b : UInt8} (hu : Solid u)
    (hhead : t.head? = some b) (hb : isSpace b = false ∧ b ∉ wideSpace)
    (ha : isSpace a = false ∧ a ∉ wideSpace) : Trimmed (t ++ a :: u) where
  right := by rw [trimRight_append_cons ha.1 ha.2, hu.trimRight_eq]
  both := by rw [trim_append_cons hhead hb ha, hu.trimRight_eq]

/-- A blank byte in front of words goes, and no more. -/
theorem Solid.trim_cons {a : UInt8} {t : Text} (ha : isSpace a = true) (h : Solid t) :
    trim (a :: t) = t := by
  rw [trim_cons_of_isSpace ha, h.trim_eq]

/-- Nor is anything left out of it. -/
theorem Solid.removeBlanks_eq {t : Text} (h : Solid t) : removeBlanks t = t := by
  fun_induction removeBlanks t with
  | case1 => rfl
  | case2 a rest hspace ih =>
    have ha := h.space a List.mem_cons_self
    rw [hspace] at ha
    cases ha
  | case3 a hspace b c after hwide ih =>
    refine absurd ?_ h.wide
    rw [hwide]
    exact (List.prefix_append [a, b, c] after).isInfix
  | case4 a hspace b c after hwide ih =>
    rw [ih (h.of_infix (List.suffix_cons a _).isInfix)]
  | case5 a rest hspace hshort ih =>
    rw [ih (h.of_infix (List.suffix_cons a _).isInfix)]

/-! ## §4. Removing blanks. -/

section

variable {a : UInt8} {t u : Text}

/-- A space at the head is left out. -/
theorem removeBlanks_cons_of_isSpace (ha : isSpace a = true) (t : Text) :
    removeBlanks (a :: t) = removeBlanks t := by
  conv => lhs; unfold removeBlanks
  rw [if_pos ha]

/-- And what begins no blank is kept. -/
theorem removeBlanks_cons (ha : ¬ isSpace a = true) (hwide : ¬ wideSpace <+: a :: t) :
    removeBlanks (a :: t) = a :: removeBlanks t := by
  conv => lhs; unfold removeBlanks
  rw [if_neg ha]
  split
  · next b c after =>
    rw [if_neg]
    intro h
    exact hwide ⟨after, by rw [h]; rfl⟩
  · rfl

/-- **Blanks are removed on either side of a seam** that cuts no blank: the part behind
does not start with a later byte of the wide one. -/
theorem removeBlanks_append (hu : u.head? ≠ some 0x80) (t : Text) :
    removeBlanks (t ++ u) = removeBlanks t ++ removeBlanks u := by
  fun_induction removeBlanks t with
  | case1 => rfl
  | case2 a rest hspace ih => rw [List.cons_append, removeBlanks_cons_of_isSpace hspace, ih]
  | case3 a hspace b c after hwide ih => simpa [removeBlanks, hspace, hwide] using ih
  | case4 a hspace b c after hwide ih => simpa [removeBlanks, hspace, hwide] using ih
  | case5 a rest hspace hshort ih =>
    -- one byte or two are left, so that a wide blank across the seam would go on behind it
    have hseam : ¬ wideSpace <+: a :: (rest ++ u) := by
      rintro ⟨more, hmore⟩
      have htail : (0x80 : UInt8) :: 0x80 :: more = rest ++ u := (List.cons.inj hmore).2
      match rest with
      | [] => exact hu (congrArg List.head? htail.symm)
      | [b] => exact hu (congrArg List.head? (List.cons.inj htail).2.symm)
      | b :: c :: after => exact hshort b c after rfl
    rw [List.cons_append, removeBlanks_cons hspace hseam, ih]
    rfl

/-- Nothing is left of blanks. -/
theorem Blanks.removeBlanks_eq (hu : Blanks wideSpace u) : removeBlanks u = [] := by
  induction hu with
  | nil => rfl
  | space hb _ ih => rw [removeBlanks_cons_of_isSpace hb, ih]
  | wide _ ih => exact ih

/-- Blanks start with a blank, so a seam in front of them cuts none. -/
theorem Blanks.head?_ne (hu : Blanks wideSpace u) : u.head? ≠ some 0x80 := by
  cases hu with
  | nil => decide
  | @space b u hb _ =>
    intro h
    rw [Option.some.inj h] at hb
    cases hb
  | wide _ =>
    show some (0xE3 : UInt8) ≠ some 0x80
    decide

/-- Blanks in front make no difference once blanks are left out. -/
theorem removeBlanks_blanks_append (hu : Blanks wideSpace u) (t : Text) :
    removeBlanks (u ++ t) = removeBlanks t := by
  induction hu with
  | nil => rfl
  | space hb _ ih => rw [List.cons_append, removeBlanks_cons_of_isSpace hb, ih]
  | wide _ ih => exact ih

/-- Nor does it make one to trim first. -/
theorem removeBlanks_trim (t : Text) : removeBlanks (trim t) = removeBlanks t := by
  obtain ⟨u, v, hu, hv, ht⟩ := exists_blanks_trim t
  conv => rhs; rw [← ht]
  rw [removeBlanks_append hv.head?_ne, hv.removeBlanks_eq, List.append_nil,
    removeBlanks_blanks_append hu]

/-- Bytes of a kind that no blank has stay where blanks are removed. -/
theorem filter_removeBlanks {p : UInt8 → Bool}
    (hp : ∀ b, p b = true → isSpace b = false ∧ b ∉ wideSpace) (t : Text) :
    (removeBlanks t).filter p = t.filter p := by
  fun_induction removeBlanks t with
  | case1 => rfl
  | case2 a rest hspace ih =>
    rw [ih, List.filter_cons_of_neg]
    intro ha
    rw [(hp a ha).1] at hspace
    cases hspace
  | case3 a hspace b c after hwide ih =>
    have hout : ∀ x ∈ [a, b, c], ¬ p x = true := by
      intro x hx hpx
      rw [← hwide] at hx
      exact (hp x hpx).2 hx
    rw [ih, List.filter_cons_of_neg (hout a (by simp)), List.filter_cons_of_neg (hout b (by simp)),
      List.filter_cons_of_neg (hout c (by simp))]
  | case4 a hspace b c after hwide ih => rw [List.filter_cons, List.filter_cons, ih]
  | case5 a rest hspace hshort ih => rw [List.filter_cons, List.filter_cons, ih]

end

end FolioGrid.Text
