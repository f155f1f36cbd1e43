/-
  FolioGrid.Proofs.Text.Occurrence
  ────────────────────────────────
  **WHERE A PATTERN STANDS.**

  A pattern occurs in a text if it is an infix of it (`<:+:`).  The search of
  the library finds the first occurrence, and none only if there is none:

      cut?_eq_none_iff, cut?_eq_some_iff — what a search for one pattern gives
      cutAny?_append                     — a search steps over what holds none
      FirstAt                            — the first position, said without a search

  A byte that does not stand in a pattern separates: what occurs around it
  occurs on one side of it (`infix_append_cons_iff`).  This is how a mark is
  known to stand on one line, or outside an argument.
-/
import FolioGrid.Text.Basic
import Mathlib.Data.List.Find

namespace FolioGrid.Text

/-! ## §1. Heads. -/

variable {p t u x y : Text} {ps : List Text} {a b : UInt8}

/-- What follows a head is there exactly if the text starts with the head. -/
theorem after?_eq_some_iff : after? p t = some u ↔ t = p ++ u := by
  unfold after?
  by_cases h : p.isPrefixOf t = true
  · have ht := List.prefix_iff_eq_append.1 (List.isPrefixOf_iff_prefix.1 h)
    rw [if_pos h, Option.some.injEq]
    constructor
    · intro hu
      rw [← hu, ht]
    · intro hu
      rw [hu, List.drop_left]
  · rw [if_neg h]
    constructor
    · intro hu
      cases hu
    · intro hu
      exact absurd (List.isPrefixOf_iff_prefix.2 ⟨u, hu.symm⟩) h

/-- A head is taken from a text that was made with it. -/
theorem after?_append (p u : Text) : after? p (p ++ u) = some u := after?_eq_some_iff.2 rfl

/-- A text with one of two different heads does not start with the other. -/
theorem after?_append_eq_none {q : Text} (hpq : ¬ p <+: q) (hqp : ¬ q <+: p) (u : Text) :
    after? p (q ++ u) = none := by
  rw [Option.eq_none_iff_forall_ne_some]
  intro v hv
  have hp : p <+: q ++ u := ⟨v, (after?_eq_some_iff.1 hv).symm⟩
  rcases List.prefix_or_prefix_of_prefix hp (List.prefix_append q u) with h | h
  · exact hpq h
  · exact hqp h

/-! ## §2. Separators. -/

/-- A pattern cannot reach over a byte that it does not hold. -/
theorem prefix_append_cons_iff (h : a ∉ p) : p <+: x ++ a :: y ↔ p <+: x := by
  induction x generalizing p with
  | nil =>
    -- only the empty pattern starts here, since any other would take the separator
    constructor
    · intro hp
      rcases List.prefix_cons_iff.1 hp with rfl | ⟨q, rfl, -⟩
      · exact List.nil_prefix
      · exact absurd List.mem_cons_self h
    · intro hp
      rw [List.prefix_nil.1 hp]
      exact List.nil_prefix
  | cons b x ih =>
    rw [List.cons_append, List.prefix_cons_iff, List.prefix_cons_iff]
    constructor
    · rintro (rfl | ⟨q, rfl, hq⟩)
      · exact Or.inl rfl
      · exact Or.inr ⟨q, rfl, (ih fun hmem => h (List.mem_cons_of_mem b hmem)).1 hq⟩
    · rintro (rfl | ⟨q, rfl, hq⟩)
      · exact Or.inl rfl
      · exact Or.inr ⟨q, rfl, (ih fun hmem => h (List.mem_cons_of_mem b hmem)).2 hq⟩

/-- What occurs around a byte that it does not contain occurs on one side. -/
theorem infix_append_cons_iff (h : a ∉ p) : p <:+: x ++ a :: y ↔ p <:+: x ∨ p <:+: y := by
  induction x with
  | nil =>
    rw [List.nil_append, List.infix_cons_iff, List.infix_nil, ← List.nil_append (a :: y),
      prefix_append_cons_iff h, List.prefix_nil]
  | cons b x ih =>
    rw [List.cons_append, List.infix_cons_iff, ← List.cons_append, prefix_append_cons_iff h, ih,
      List.infix_cons_iff, or_assoc]

/-- Texts that end at the same separator, which neither holds, are the same. -/
theorem append_cons_inj (hx : a ∉ x) (hu : a ∉ u) (h : x ++ a :: y = u ++ a :: t) :
    x = u ∧ y = t := by
  induction x generalizing u with
  | nil =>
    cases u with
    | nil => exact ⟨rfl, (List.cons.inj h).2⟩
    | cons b u => exact absurd ((List.cons.inj h).1 ▸ List.mem_cons_self) hu
  | cons b x ih =>
    cases u with
    | nil => exact absurd ((List.cons.inj h).1 ▸ List.mem_cons_self) hx
    | cons c u =>
      obtain ⟨rfl, htail⟩ := List.cons.inj h
      rw [List.mem_cons, not_or] at hx hu
      obtain ⟨rfl, rfl⟩ := ih hx.2 hu.2 htail
      exact ⟨rfl, rfl⟩

/-- A byte that the first part of a text lacks stands in the other part. -/
theorem exists_of_append_cons_eq {v : Text} (hu : a ∉ u) (h : x ++ a :: y = u ++ v) :
    ∃ q, x = u ++ q ∧ v = q ++ a :: y := by
  rcases List.append_eq_append_iff.1 h with ⟨q, rfl, hq⟩ | hsplit
  · cases q with
    | nil => exact ⟨[], by simp, hq.symm⟩
    | cons d q =>
      obtain ⟨rfl, -⟩ := List.cons.inj hq
      exact absurd (by simp) hu
  · exact hsplit

/-- A pattern does not start in a part that lacks its first byte. -/
theorem infix_of_infix_append (h : b ∉ x) (hp : b :: p <:+: x ++ y) : b :: p <:+: y := by
  induction x with
  | nil => exact hp
  | cons c x ih =>
    rcases List.infix_cons_iff.1 hp with hp | hp
    · rw [(List.cons_prefix_cons.1 hp).1] at h
      exact absurd List.mem_cons_self h
    · exact ih (fun hmem => h (List.mem_cons_of_mem c hmem)) hp

/-- A pattern with its first byte nowhere else does not reach over that byte. -/
theorem infix_append_cons_iff_of_head (h : b ∉ p) :
    b :: p <:+: x ++ b :: y ↔ b :: p <:+: x ∨ b :: p <+: b :: y ∨ b :: p <:+: y := by
  induction x with
  | nil =>
    rw [List.nil_append, List.infix_cons_iff, List.infix_nil]
    simp
  | cons c x ih =>
    have hhead : b :: p <+: c :: x ++ b :: y ↔ b :: p <+: c :: x := by
      rw [List.cons_append, List.cons_prefix_cons, List.cons_prefix_cons, prefix_append_cons_iff h]
    rw [List.cons_append, List.infix_cons_iff, ← List.cons_append, hhead, ih, List.infix_cons_iff,
      or_assoc]

/-- A text without the pattern's first byte does not contain the pattern. -/
theorem not_infix_of_not_mem (h : b ∉ t) : ¬ b :: p <:+: t :=
  fun hp => h (hp.mem List.mem_cons_self)

/-! ## §3. Searching. -/

/-- No pattern is found in front if none stands there. -/
theorem find?_isPrefixOf_eq_none_iff :
    ps.find? (·.isPrefixOf t) = none ↔ ∀ p ∈ ps, ¬ p <+: t := by
  rw [List.find?_eq_none]
  simp only [List.isPrefixOf_iff_prefix]

/-- A pattern at the head is the first occurrence, if no other goes before it. -/
theorem cutAny?_cons_append (p : Text) (ps : List Text) (u : Text) :
    cutAny? (p :: ps) (p ++ u) = some ⟨[], p, u⟩ := by
  have hf : (p :: ps).find? (·.isPrefixOf (p ++ u)) = some p := by
    rw [List.find?_cons_of_pos]
    exact List.isPrefixOf_iff_prefix.2 (List.prefix_append p u)
  rw [cutAny?_of_find? hf, List.drop_left]

theorem cut?_append (p u : Text) : cut? p (p ++ u) = some ⟨[], p, u⟩ := cutAny?_cons_append p [] u

/-- A search steps over a part in which no pattern starts. -/
theorem cutAny?_append (h : ∀ u v, x = u ++ v → v ≠ [] → ∀ p ∈ ps, ¬ p <+: v ++ y) :
    cutAny? ps (x ++ y) = (cutAny? ps y).map fun c => { c with before := x ++ c.before } := by
  induction x with
  | nil =>
    show cutAny? ps y = (cutAny? ps y).map id
    rw [Option.map_id]
    rfl
  | cons b x ih =>
    have hhead := find?_isPrefixOf_eq_none_iff.2 (h [] (b :: x) rfl (List.cons_ne_nil b x))
    have htail := ih fun u v hx => h (b :: u) v (by rw [hx]; rfl)
    rw [List.cons_append] at hhead ⊢
    rw [cutAny?_cons hhead, htail, Option.map_map]
    rfl

/-- A search steps over a separator and what holds no pattern before it. -/
theorem cutAny?_append_cons (hsep : ∀ p ∈ ps, a ∉ p) (h : ∀ p ∈ ps, ¬ p <:+: x) :
    cutAny? ps (x ++ a :: y)
      = (cutAny? ps y).map fun c => { c with before := x ++ a :: c.before } := by
  rw [List.append_cons x a y, cutAny?_append]
  · simp only [List.append_assoc, List.singleton_append]
  · intro u v hx hv p hp hpv
    -- a part of `x` and the separator: the pattern would stand in that part
    rw [← List.dropLast_concat_getLast hv] at hx hpv
    obtain ⟨hxu, hlast⟩ := List.append_inj' (hx.trans (List.append_assoc _ _ _).symm) rfl
    rw [← hlast, List.append_assoc, List.singleton_append,
      prefix_append_cons_iff (hsep p hp)] at hpv
    exact h p hp (hxu ▸ hpv.isInfix.trans (List.suffix_append u _).isInfix)

/-- In front of a separator the same patterns stand whatever follows it. -/
theorem find?_isPrefixOf_append_cons (hsep : ∀ p ∈ ps, a ∉ p) (x y : Text) :
    ps.find? (·.isPrefixOf (x ++ a :: y)) = ps.find? (·.isPrefixOf x) := by
  refine List.find?_congr fun p hp => ?_
  rw [Bool.eq_iff_iff, List.isPrefixOf_iff_prefix, List.isPrefixOf_iff_prefix,
    prefix_append_cons_iff (hsep p hp)]

/-- A search that ends in front of a separator ends there whatever follows it. -/
theorem cutAny?_append_cons_of_some (hsep : ∀ p ∈ ps, a ∉ p) {c : Cut}
    (h : cutAny? ps x = some c) (y : Text) :
    cutAny? ps (x ++ a :: y) = some { c with after := c.after ++ a :: y } := by
  have hfound : ∀ {x p}, ps.find? (·.isPrefixOf x) = some p →
      cutAny? ps (x ++ a :: y) = some ⟨[], p, x.drop p.length ++ a :: y⟩ := by
    intro x p hf
    have hp : p <+: x := List.isPrefixOf_iff_prefix.1 (by simpa using List.find?_some hf)
    rw [cutAny?_of_find? ((find?_isPrefixOf_append_cons hsep x y).trans hf),
      List.drop_append_of_le_length hp.length_le]
  -- induction on the text in front of the separator, as the search goes
  induction x generalizing c with
  | nil =>
    cases hf : ps.find? (·.isPrefixOf []) with
    | none => simp [cutAny?, cutAny?.go, hf] at h
    | some p =>
      rw [cutAny?_of_find? hf] at h
      cases h
      exact hfound hf
  | cons b x ih =>
    cases hf : ps.find? (·.isPrefixOf (b :: x)) with
    | some p =>
      rw [cutAny?_of_find? hf] at h
      cases h
      exact hfound hf
    | none =>
      have hnone := (find?_isPrefixOf_append_cons hsep (b :: x) y).trans hf
      rw [List.cons_append] at hnone
      rw [cutAny?_cons hf] at h
      obtain ⟨c', hc', rfl⟩ := Option.map_eq_some_iff.1 h
      rw [List.cons_append, cutAny?_cons hnone, ih hc']
      rfl

/-- Where a pattern stands at the head, one is found and one occurs. -/
theorem cutAny?_eq_none_iff_of_find? (hf : ps.find? (·.isPrefixOf t) = some p) :
    cutAny? ps t = none ↔ ∀ q ∈ ps, ¬ q <:+: t := by
  have hp := List.find?_some hf
  rw [cutAny?_of_find? hf]
  constructor
  · intro h
    exact absurd h (Option.some_ne_none _)
  · intro h
    exact absurd (List.isPrefixOf_iff_prefix.1 hp).isInfix (h p (List.mem_of_find?_eq_some hf))

/-- A search finds nothing exactly if no pattern occurs. -/
theorem cutAny?_eq_none_iff : cutAny? ps t = none ↔ ∀ p ∈ ps, ¬ p <:+: t := by
  induction t with
  | nil =>
    cases hf : ps.find? (·.isPrefixOf []) with
    | some p => exact cutAny?_eq_none_iff_of_find? hf
    | none =>
      have hnone : cutAny? ps [] = none := by
        unfold cutAny? cutAny?.go
        rw [hf]
      simpa [hnone] using find?_isPrefixOf_eq_none_iff.1 hf
  | cons b rest ih =>
    cases hf : ps.find? (·.isPrefixOf (b :: rest)) with
    | some p => exact cutAny?_eq_none_iff_of_find? hf
    | none =>
      rw [cutAny?_cons hf, Option.map_eq_none_iff, ih]
      have hhead := find?_isPrefixOf_eq_none_iff.1 hf
      constructor
      · intro h p hp hinfix
        exact (List.infix_cons_iff.1 hinfix).elim (hhead p hp) (h p hp)
      · intro h p hp hinfix
        exact h p hp (List.infix_cons hinfix)

/-- A search fails exactly where the pattern is no part of the text. -/
theorem cut?_eq_none_iff : cut? p t = none ↔ ¬ p <:+: t := by
  unfold cut?
  rw [cutAny?_eq_none_iff]
  simp only [List.mem_singleton, forall_eq]

/-- No occurrence starts before the one that is found. -/
theorem not_infix_of_cut? {c : Cut} (hp : p ≠ []) (h : cut? p t = some c) :
    ¬ p <:+: c.before ++ p.dropLast := by
  have short : ∀ {q : Text}, p <:+: q → q.length < p.length → False := by
    intro q hq hlt
    have hle := hq.length_le
    omega
  have hlast : p.dropLast.length < p.length := by
    have hpos := List.length_pos_iff.2 hp
    rw [List.length_dropLast]
    omega
  -- induction on the text, as the search goes; a pattern found at the head has
  -- nothing before it, and what is left of it is too short
  induction t generalizing c with
  | nil =>
    cases hf : [p].find? (·.isPrefixOf []) with
    | none => simp [cut?, cutAny?, cutAny?.go, hf] at h
    | some q =>
      rw [cut?, cutAny?_of_find? hf] at h
      cases h
      exact fun hq => short hq hlast
  | cons b rest ih =>
    cases hf : [p].find? (·.isPrefixOf (b :: rest)) with
    | some q =>
      rw [cut?, cutAny?_of_find? hf] at h
      cases h
      exact fun hq => short hq hlast
    | none =>
      have hhead := find?_isPrefixOf_eq_none_iff.1 hf p (List.mem_singleton_self p)
      rw [cut?, cutAny?_cons hf] at h
      obtain ⟨c', hc', rfl⟩ := Option.map_eq_some_iff.1 h
      intro hq
      rcases List.infix_cons_iff.1 hq with hq | hq
      · -- an occurrence at the very head lies inside the text
        refine hhead (hq.trans ?_)
        have hrest := append_of_cutAny? hc'
        rw [found_of_cut? hc'] at hrest
        refine List.cons_prefix_cons.2 ⟨rfl, ?_⟩
        rw [← hrest, List.append_assoc]
        exact List.prefix_append_right_inj c'.before |>.2
          ((List.dropLast_prefix p).trans (List.prefix_append p c'.after))
      · exact ih hc' hq

/-- A pattern that starts in front of another occurrence of it ends before the last
byte of that one. -/
theorem prefix_append_dropLast (hx : x ≠ []) (h : p <+: x ++ (p ++ y)) :
    p <+: x ++ p.dropLast := by
  have hshort : x ++ p.dropLast <+: x ++ (p ++ y) := by
    refine (List.prefix_append_right_inj x).2 ?_
    exact (List.dropLast_prefix p).trans (List.prefix_append p y)
  refine List.prefix_of_prefix_length_le h hshort ?_
  have hpos := List.length_pos_iff.2 hx
  rw [List.length_append, List.length_dropLast]
  omega

/-- **A search finds the first occurrence.** -/
theorem cut?_eq_some_iff {c : Cut} (hp : p ≠ []) :
    cut? p t = some c ↔
      t = c.before ++ p ++ c.after ∧ c.found = p ∧ ¬ p <:+: c.before ++ p.dropLast := by
  constructor
  · intro h
    have hfound := found_of_cut? h
    have ht := append_of_cutAny? h
    rw [hfound] at ht
    exact ⟨ht.symm, hfound, not_infix_of_cut? hp h⟩
  · rintro ⟨ht, hfound, hfirst⟩
    -- the search steps over all that stands before
    have hskip : cut? p (c.before ++ (p ++ c.after))
        = (cut? p (p ++ c.after)).map fun c' => { c' with before := c.before ++ c'.before } := by
      refine cutAny?_append fun u v hx hv q hq hpv => ?_
      rw [List.mem_singleton.1 hq] at hpv
      refine hfirst ((prefix_append_dropLast hv hpv).isInfix.trans ?_)
      rw [hx, List.append_assoc]
      exact (List.suffix_append u _).isInfix
    rw [ht, List.append_assoc, hskip, cut?_append, ← hfound]
    simp

/-- A search steps over what lacks the first byte of its pattern. -/
theorem cut?_append_of_not_mem (h : a ∉ x) (y : Text) :
    cut? (a :: p) (x ++ y)
      = (cut? (a :: p) y).map fun c => { c with before := x ++ c.before } := by
  refine cutAny?_append fun u v hx hv q hq hqv => ?_
  obtain ⟨b, v, rfl⟩ := List.exists_cons_of_ne_nil hv
  rw [List.mem_singleton.1 hq] at hqv
  -- the pattern would start with a byte of the part in front
  refine h ?_
  rw [(List.cons_prefix_cons.1 hqv).1, hx]
  exact List.mem_append_right u List.mem_cons_self

/-- **A search does not see what shares no byte with its pattern** around a text. -/
theorem cut?_append_append (hp : p ≠ []) (hx : ∀ b ∈ x, b ∉ p) (hy : ∀ b ∈ y, b ∉ p) :
    cut? p (x ++ t ++ y)
      = (cut? p t).map fun c => ⟨x ++ c.before, c.found, c.after ++ y⟩ := by
  obtain ⟨a, q, rfl⟩ := List.exists_cons_of_ne_nil hp
  have hskip : cut? (a :: q) (x ++ (t ++ y))
      = (cut? (a :: q) (t ++ y)).map fun c => { c with before := x ++ c.before } :=
    cut?_append_of_not_mem (fun ha => hx a ha List.mem_cons_self) (t ++ y)
  have hbehind : cut? (a :: q) (t ++ y)
      = (cut? (a :: q) t).map fun c => { c with after := c.after ++ y } := by
    cases hcut : cut? (a :: q) t with
    | none =>
      rw [Option.map_none, cut?_eq_none_iff]
      rw [cut?_eq_none_iff] at hcut
      cases y with
      | nil => rwa [List.append_nil]
      | cons b y =>
        rw [infix_append_cons_iff (hy b List.mem_cons_self), not_or]
        exact ⟨hcut, not_infix_of_not_mem fun hmem =>
          hy a (List.mem_cons_of_mem b hmem) List.mem_cons_self⟩
    | some c =>
      obtain ⟨ht, hfound, hfirst⟩ := (cut?_eq_some_iff hp).1 hcut
      rw [Option.map_some, cut?_eq_some_iff hp]
      exact ⟨by rw [ht, List.append_assoc], hfound, hfirst⟩
  rw [List.append_assoc, hskip, hbehind, Option.map_map]
  rfl

/-- What stands in front of the earliest pattern holds none of them. -/
theorem not_infix_before_of_cutAny? {c : Cut} (hne : [] ∉ ps) (h : cutAny? ps t = some c) :
    ∀ p ∈ ps, ¬ p <:+: c.before := by
  have empty : ∀ p ∈ ps, ¬ p <:+: [] := by
    intro p hp hin
    rw [List.infix_nil.1 hin] at hp
    exact hne hp
  -- induction on the text, as the search goes
  induction t generalizing c with
  | nil =>
    cases hf : ps.find? (·.isPrefixOf []) with
    | none => simp [cutAny?, cutAny?.go, hf] at h
    | some q =>
      rw [cutAny?_of_find? hf] at h
      cases h
      exact empty
  | cons b rest ih =>
    cases hf : ps.find? (·.isPrefixOf (b :: rest)) with
    | some q =>
      rw [cutAny?_of_find? hf] at h
      cases h
      exact empty
    | none =>
      have hhead := find?_isPrefixOf_eq_none_iff.1 hf
      rw [cutAny?_cons hf] at h
      obtain ⟨c', hc', rfl⟩ := Option.map_eq_some_iff.1 h
      intro p hp hin
      rcases List.infix_cons_iff.1 hin with hin | hin
      · -- a pattern at the very head would stand at the head of the text
        refine hhead p hp (hin.trans (List.cons_prefix_cons.2 ⟨rfl, ?_⟩))
        rw [← append_of_cutAny? hc', List.append_assoc]
        exact List.prefix_append _ _
      · exact ih hc' p hp hin

/-! ## §4. Positions. -/

/-- The position at which a pattern stands for the first time. -/
structure FirstAt (p t : Text) (i : Nat) : Prop where
  /-- It stands there. -/
  here : p <+: t.drop i
  /-- It stands nowhere before. -/
  first : ∀ j < i, ¬ p <+: t.drop j

/-- There is one first place at most. -/
theorem FirstAt.eq {i j : Nat} (hi : FirstAt p t i) (hj : FirstAt p t j) : i = j := by
  rcases Nat.lt_trichotomy i j with h | h | h
  · exact absurd hi.here (hj.first i h)
  · exact h
  · exact absurd hj.here (hi.first j h)

theorem FirstAt.isInfix {i : Nat} (h : FirstAt p t i) : p <:+: t :=
  h.here.isInfix.trans (List.drop_suffix i t).isInfix

/-- A search ends at the first position. -/
theorem firstAt_of_cut? {c : Cut} (hp : p ≠ []) (h : cut? p t = some c) :
    FirstAt p t c.before.length := by
  obtain ⟨ht, -, hfirst⟩ := (cut?_eq_some_iff hp).1 h
  constructor
  · rw [ht, List.append_assoc, List.drop_left]
    exact List.prefix_append p c.after
  · intro j hj hpj
    have hne : c.before.drop j ≠ [] := by
      rw [Ne, List.drop_eq_nil_iff]
      omega
    rw [ht, List.append_assoc, List.drop_append_of_le_length (Nat.le_of_lt hj)] at hpj
    refine hfirst ((prefix_append_dropLast hne hpj).isInfix.trans ?_)
    -- what is left of the part in front, with the pattern behind, is the end of both
    rw [← List.drop_append_of_le_length (Nat.le_of_lt hj)]
    exact (List.drop_suffix j _).isInfix

end FolioGrid.Text
