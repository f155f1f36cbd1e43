/-
  FolioGrid.Proofs.Markup.Balance
  ────────────────────────────────
  **BALANCE.**

  A text is balanced in some delimiters if no closer comes too early and none is
  missing at the end (`Delimiters.Balanced`).  How deep the text of a book is
  nested can be followed byte by byte:

      Delimiters.depth? — the depth behind a text, given that in front of it
      balanced_iff      — a balanced text is one that leads from 0 back to 0

  What is dropped on the way to the grid (blanks, punctuation, line feeds, the
  delimiters of an argument) is balanced itself, so it does not change the depth
  of what is left.  This also holds of the wrappers of a style, as long as their
  options are balanced (`depth?_unwrapStyles`).
-/
import FolioGrid.Proofs.Markup.Argument
import FolioGrid.Proofs.Markup.Characters
import FolioGrid.Text.Punctuation

namespace FolioGrid.Markup

open FolioGrid.Text

namespace Delimiters

variable {d : Delimiters} {t u v : Text} {n m : Nat}

/-! ## §1. Depth. -/

/-- The depth behind a byte; none if the byte closes what is not open. -/
def step? (d : Delimiters) (n : Nat) (b : UInt8) : Option Nat :=
  if b = d.opener then some (n + 1)
  else if b = d.closer then (if n = 0 then none else some (n - 1))
  else some n

/-- The depth behind a text; none if a closer comes too early. -/
def depth? (d : Delimiters) (t : Text) (n : Nat) : Option Nat := t.foldlM d.step? n

theorem depth?_nil (n : Nat) : d.depth? [] n = some n := rfl

/-- One byte is counted before the others. -/
theorem depth?_cons (b : UInt8) (t : Text) (n : Nat) :
    d.depth? (b :: t) n = (d.step? n b).bind (d.depth? t) := List.foldlM_cons

/-- The first part of a text leads to the depth from which the second one is counted. -/
theorem depth?_append (t u : Text) (n : Nat) :
    d.depth? (t ++ u) n = (d.depth? t n).bind (d.depth? u) := List.foldlM_append

/-- An opener leads one deeper, -/
theorem step?_opener (n : Nat) : d.step? n d.opener = some (n + 1) := if_pos rfl

/-- a closer one out, or nowhere if nothing is open, -/
theorem step?_closer (hd : d.opener ≠ d.closer) (n : Nat) :
    d.step? n d.closer = if n = 0 then none else some (n - 1) := by
  unfold step?
  rw [if_neg (Ne.symm hd), if_pos rfl]

/-- and any other byte leaves the depth as it is. -/
theorem step?_of_ne {b : UInt8} (ho : b ≠ d.opener) (hc : b ≠ d.closer) (n : Nat) :
    d.step? n b = some n := by
  unfold step?
  rw [if_neg ho, if_neg hc]

/-- The depth of a text depends on the depths of its parts only. -/
theorem depth?_append_congr {t' u' : Text} (ht : d.depth? t = d.depth? t')
    (hu : d.depth? u = d.depth? u') : d.depth? (t ++ u) = d.depth? (t' ++ u') := by
  funext n
  rw [depth?_append, depth?_append, ht, hu]

/-- What does not change the depth can be dropped in front of a text. -/
theorem depth?_append_left (ht : d.depth? t = some) (u : Text) :
    d.depth? (t ++ u) = d.depth? u := by
  funext n
  rw [depth?_append, ht]
  rfl

/-- A text that leaves every depth as it is can be left out at the end. -/
theorem depth?_append_right (hu : d.depth? u = some) (t : Text) :
    d.depth? (t ++ u) = d.depth? t := by
  funext n
  rw [depth?_append, hu]
  exact Option.bind_fun_some _

/-- Dropping bytes that are no delimiters. -/
theorem depth?_filter {p : UInt8 → Bool} (ho : p d.opener = true) (hc : p d.closer = true)
    (t : Text) : d.depth? (t.filter p) = d.depth? t := by
  induction t with
  | nil => rfl
  | cons b t ih =>
    funext n
    by_cases hb : p b = true
    · rw [List.filter_cons_of_pos hb, depth?_cons, depth?_cons, ih]
    · have hne : b ≠ d.opener ∧ b ≠ d.closer := by
        constructor
        · rintro rfl
          exact hb ho
        · rintro rfl
          exact hb hc
      rw [List.filter_cons_of_neg hb, depth?_cons, step?_of_ne hne.1 hne.2, ih]
      rfl

/-- A text without delimiters is such a text. -/
theorem depth?_of_not_mem (ho : d.opener ∉ t) (hc : d.closer ∉ t) : d.depth? t = some := by
  have hnil : t.filter (fun b => b = d.opener ∨ b = d.closer) = [] := by
    rw [List.filter_eq_nil_iff]
    intro b hb hmem
    rcases of_decide_eq_true hmem with rfl | rfl
    · exact ho hb
    · exact hc hb
  rw [← depth?_filter (p := fun b => b = d.opener ∨ b = d.closer) (by simp) (by simp) t, hnil]
  rfl

/-- Bytes of a kind that no delimiter is of. -/
theorem depth?_of_forall {p : UInt8 → Prop} (h : ∀ b ∈ t, p b) (ho : ¬ p d.opener)
    (hc : ¬ p d.closer) : d.depth? t = some :=
  depth?_of_not_mem (fun hmem => ho (h _ hmem)) fun hmem => hc (h _ hmem)

/-- **Depth, counted.** A text leads from one depth to another exactly if no
beginning of it closes more than is open, and the numbers fit at its end. -/
theorem depth?_eq_some_iff (hd : d.opener ≠ d.closer) :
    d.depth? t n = some m
      ↔ (∀ p, p <+: t → p.count d.closer ≤ n + p.count d.opener)
        ∧ m + t.count d.closer = n + t.count d.opener := by
  induction t generalizing n with
  | nil =>
    simp [depth?_nil, List.prefix_nil, eq_comm]
  | cons b t ih =>
    -- a beginning is empty, or the first byte and a beginning of the rest
    have hcons : (∀ p, p <+: b :: t → p.count d.closer ≤ n + p.count d.opener)
        ↔ ∀ q, q <+: t → (b :: q).count d.closer ≤ n + (b :: q).count d.opener := by
      constructor
      · intro h q hq
        exact h (b :: q) (List.cons_prefix_cons.2 ⟨rfl, hq⟩)
      · intro h p hp
        rcases List.prefix_cons_iff.1 hp with rfl | ⟨q, rfl, hq⟩
        · simp
        · exact h q hq
    rw [hcons, depth?_cons]
    by_cases ho : b = d.opener
    · subst ho
      simp only [step?_opener, Option.bind_some, ih, List.count_cons_of_ne hd, List.count_cons_self]
      constructor
      · rintro ⟨hcovered, hends⟩
        exact ⟨fun q hq => by have := hcovered q hq; omega, by omega⟩
      · rintro ⟨hcovered, hends⟩
        exact ⟨fun q hq => by have := hcovered q hq; omega, by omega⟩
    by_cases hc : b = d.closer
    · subst hc
      simp only [step?_closer hd, List.count_cons_of_ne (Ne.symm hd), List.count_cons_self]
      cases n with
      | zero =>
        -- the closer itself comes too early
        constructor
        · intro h
          cases h
        · rintro ⟨hcovered, -⟩
          have hfirst := hcovered [] List.nil_prefix
          simp at hfirst
      | succ n =>
        rw [if_neg (Nat.succ_ne_zero n), Option.bind_some, Nat.add_sub_cancel, ih]
        constructor
        · rintro ⟨hcovered, hends⟩
          exact ⟨fun q hq => by have := hcovered q hq; omega, by omega⟩
        · rintro ⟨hcovered, hends⟩
          exact ⟨fun q hq => by have := hcovered q hq; omega, by omega⟩
    · simp only [step?_of_ne ho hc, Option.bind_some, ih, List.count_cons_of_ne ho,
        List.count_cons_of_ne hc]

/-! ## §2. Balanced texts. -/

/-- A text in which every delimiter has its partner. -/
structure Balanced (d : Delimiters) (t : Text) : Prop where
  /-- No beginning has more closers than openers. -/
  covered : ∀ p, p <+: t → p.count d.closer ≤ p.count d.opener
  /-- In all there are as many. -/
  settled : t.count d.closer = t.count d.opener

/-- **A balanced text leads from no depth to no depth.** -/
theorem balanced_iff (hd : d.opener ≠ d.closer) : d.Balanced t ↔ d.depth? t 0 = some 0 := by
  rw [depth?_eq_some_iff hd]
  constructor
  · rintro ⟨hcovered, hsettled⟩
    exact ⟨fun p hp => by have := hcovered p hp; omega, by omega⟩
  · rintro ⟨hcovered, hends⟩
    exact ⟨fun p hp => by have := hcovered p hp; omega, by omega⟩

/-- And so does it from any other one to the same. -/
theorem Balanced.depth?_eq (hd : d.opener ≠ d.closer) (h : d.Balanced t) : d.depth? t = some := by
  funext n
  rw [depth?_eq_some_iff hd]
  exact ⟨fun p hp => by have := h.covered p hp; omega, by rw [h.settled]⟩

theorem Balanced.nil (hd : d.opener ≠ d.closer) : d.Balanced [] := (balanced_iff hd).2 rfl

/-- Balanced texts one behind the other are balanced. -/
theorem Balanced.append (hd : d.opener ≠ d.closer) (ht : d.Balanced t) (hu : d.Balanced u) :
    d.Balanced (t ++ u) := by
  rw [balanced_iff hd, depth?_append_left (ht.depth?_eq hd), ← balanced_iff hd]
  exact hu

/-- So is a balanced text between its delimiters. -/
theorem Balanced.nested (hd : d.opener ≠ d.closer) (h : d.Balanced t) :
    d.Balanced (d.opener :: t ++ [d.closer]) := by
  rw [balanced_iff hd, List.cons_append, depth?_cons, step?_opener, Option.bind_some,
    depth?_append_left (h.depth?_eq hd), depth?_cons, step?_closer hd,
    if_neg (Nat.succ_ne_zero 0), Option.bind_some, depth?_nil]

/-- Behind a balanced text, what balances the whole is balanced. -/
theorem Balanced.of_append (hd : d.opener ≠ d.closer) (ht : d.Balanced t)
    (h : d.Balanced (t ++ u)) : d.Balanced u := by
  rw [balanced_iff hd, depth?_append_left (ht.depth?_eq hd), ← balanced_iff hd] at h
  exact h

/-- A text of the same depth. -/
theorem Balanced.congr (hd : d.opener ≠ d.closer) (h : d.Balanced t)
    (htu : d.depth? u = d.depth? t) : d.Balanced u := by
  rw [balanced_iff hd] at h ⊢
  rw [htu, h]

/-- And so are any number of them. -/
theorem Balanced.flatten (hd : d.opener ≠ d.closer) {pieces : List Text}
    (h : ∀ t ∈ pieces, d.Balanced t) : d.Balanced pieces.flatten := by
  induction pieces with
  | nil => exact .nil hd
  | cons t pieces ih =>
    rw [List.flatten_cons]
    exact (h t List.mem_cons_self).append hd (ih fun u hu => h u (List.mem_cons_of_mem t hu))

/-- **Where balance is lost.** The pieces of a text are all balanced exactly if
nothing is open behind any of them. -/
theorem forall_balanced_iff (hd : d.opener ≠ d.closer) {pieces : List Text} :
    (∀ t ∈ pieces, d.Balanced t) ↔ ∀ p, p <+: pieces → d.Balanced p.flatten := by
  constructor
  · intro h p hp
    exact Balanced.flatten hd fun t ht => h t (hp.subset ht)
  · intro h t ht
    obtain ⟨above, below, rfl⟩ := List.append_of_mem ht
    have habove := h above (List.prefix_append above _)
    have hpiece := h (above ++ [t]) ⟨below, by simp⟩
    rw [List.flatten_concat] at hpiece
    exact habove.of_append hd hpiece

/-- What leaves more open than it closes does not stand at the end of a balanced text,
so no byte behind such a text completes it. -/
theorem Balanced.not_infix_concat {p : Text} (h : d.Balanced t) (hp : ¬ p <:+: t)
    (hopen : p.dropLast.count d.closer < p.dropLast.count d.opener) (b : UInt8) :
    ¬ p <:+: t ++ [b] := by
  intro hin
  rcases List.infix_concat_iff.1 hin with hsuffix | hinside
  · rcases List.suffix_concat_iff.1 hsuffix with rfl | ⟨q, rfl, hq⟩
    · exact absurd hopen (by simp)
    · obtain ⟨u, rfl⟩ := hq
      rw [List.dropLast_concat] at hopen
      have hcovered := h.covered u (List.prefix_append u q)
      have hsettled := h.settled
      rw [List.count_append, List.count_append] at hsettled
      omega
  · exact hp hinside

/-! ## §3. Arguments. -/

/-- What a scan takes from a text leads out of its depth, and no further. -/
theorem depth?_of_balanced?_go {passed content rest : Text}
    (h : balanced?.go d n passed t = some (content, rest)) :
    ∃ u, content = passed.reverse ++ u ∧ d.depth? u n = some 0 := by
  -- the scan steps through the depths as `depth?` does
  induction t generalizing n passed with
  | nil => cases h
  | cons b t ih =>
    have hpush : ∀ u, (b :: passed).reverse ++ u = passed.reverse ++ b :: u := by simp
    unfold balanced?.go at h
    split at h
    · next ho =>
      obtain ⟨u, hcontent, hu⟩ := ih h
      refine ⟨b :: u, by rw [hcontent, hpush], ?_⟩
      rw [depth?_cons, ho, step?_opener]
      exact hu
    split at h
    · next ho hc =>
      cases n with
      | zero =>
        cases h
        exact ⟨[], (List.append_nil _).symm, rfl⟩
      | succ n =>
        obtain ⟨u, hcontent, hu⟩ := ih h
        refine ⟨b :: u, by rw [hcontent, hpush], ?_⟩
        rw [depth?_cons, hc, step?_closer (hc ▸ Ne.symm ho), if_neg (Nat.succ_ne_zero n)]
        exact hu
    · next ho hc =>
      obtain ⟨u, hcontent, hu⟩ := ih h
      refine ⟨b :: u, by rw [hcontent, hpush], ?_⟩
      rw [depth?_cons, step?_of_ne ho hc]
      exact hu

/-- A scan that does not come out of a text stays inside its argument, however deep
that stands. -/
theorem le_of_balanced?_go_eq_none {outer : Nat} {passed : Text}
    (h : balanced?.go d n passed t = none) (hdepth : d.depth? t (n + (outer + 1)) = some m) :
    outer + 1 ≤ m := by
  induction t generalizing n passed with
  | nil =>
    cases hdepth
    omega
  | cons b t ih =>
    unfold balanced?.go at h
    rw [depth?_cons] at hdepth
    split at h
    · next ho =>
      rw [ho, step?_opener, Option.bind_some,
        show n + (outer + 1) + 1 = n + 1 + (outer + 1) by omega] at hdepth
      exact ih h hdepth
    split at h
    · next ho hc =>
      rw [hc, step?_closer (hc ▸ Ne.symm ho), if_neg (by omega), Option.bind_some] at hdepth
      cases n with
      | zero => cases h
      | succ n =>
        rw [show n + 1 + (outer + 1) - 1 = n + (outer + 1) by omega] at hdepth
        exact ih h hdepth
    · next ho hc =>
      rw [step?_of_ne ho hc] at hdepth
      exact ih h hdepth

variable {a : Argument}

/-- **The argument that a scan takes is balanced**, if it was closed. -/
theorem balanced_of_argument? (hd : d.opener ≠ d.closer) (h : d.argument? t = some a)
    (hclosed : a.closed = true) : d.Balanced a.content := by
  cases t with
  | nil => cases h
  | cons b t =>
    simp only [argument?, Option.ite_none_right_eq_some, Option.some.injEq] at h
    obtain ⟨-, rfl⟩ := h
    unfold argument at hclosed ⊢
    split
    · next content rest hscan =>
      obtain ⟨u, hcontent, hu⟩ := depth?_of_balanced?_go hscan
      rw [List.reverse_nil, List.nil_append] at hcontent
      rw [balanced_iff hd, hcontent]
      exact hu
    · next hscan =>
      rw [hscan] at hclosed
      cases hclosed

/-- Its delimiters can be dropped. -/
theorem depth?_argument (hd : d.opener ≠ d.closer) (h : d.argument? t = some a)
    (hclosed : a.closed = true) : d.depth? t = d.depth? (a.content ++ a.rest) := by
  have hcontent := (balanced_of_argument? hd h hclosed).depth?_eq hd
  rcases eq_of_argument? h with ⟨heq, -⟩ | ⟨-, -, hopen⟩
  · funext n
    rw [depth?_append_left hcontent, heq, depth?_cons, step?_opener, Option.bind_some,
      depth?_append_left hcontent, depth?_cons, step?_closer hd, if_neg (Nat.succ_ne_zero n)]
    rfl
  · rw [hopen] at hclosed
    cases hclosed

/-- An argument is closed in a text that leads out of it. -/
theorem closed_of_depth? (h : d.argument? t = some a) (hdepth : d.depth? t n = some 0) :
    a.closed = true := by
  cases t with
  | nil => cases h
  | cons b t =>
    simp only [argument?, Option.ite_none_right_eq_some, Option.some.injEq] at h
    obtain ⟨hb, rfl⟩ := h
    rw [hb, depth?_cons, step?_opener, Option.bind_some] at hdepth
    unfold argument
    split
    · rfl
    · next hscan =>
      have hinside : n + 1 ≤ 0 :=
        le_of_balanced?_go_eq_none hscan (by rw [Nat.zero_add]; exact hdepth)
      exact absurd hinside (Nat.not_succ_le_zero n)

/-- The scan for a closer steps through the depths of a text. -/
theorem balanced?_go_append {n m : Nat} (h : d.depth? t n = some m) (passed rest : Text) :
    balanced?.go d n passed (t ++ rest) = balanced?.go d m (t.reverse ++ passed) rest := by
  induction t generalizing n passed with
  | nil =>
    cases h
    rfl
  | cons b t ih =>
    obtain ⟨k, hk, h⟩ := Option.bind_eq_some_iff.1 ((depth?_cons b t n).symm.trans h)
    have hstep : balanced?.go d n passed (b :: (t ++ rest))
        = balanced?.go d k (b :: passed) (t ++ rest) := by
      unfold step? at hk
      conv => lhs; unfold balanced?.go
      split at hk
      · next ho =>
        cases hk
        rw [if_pos ho]
      split at hk
      · next ho hc =>
        rw [if_neg ho, if_pos hc]
        cases n with
        | zero => cases hk
        | succ n =>
          cases hk
          rfl
      · next ho hc =>
        cases hk
        rw [if_neg ho, if_neg hc]
    rw [List.cons_append, hstep, ih h, List.reverse_cons, List.append_assoc,
      List.singleton_append]

theorem Balanced.passes (hd : d.opener ≠ d.closer) (h : d.Balanced t) : d.Passes t :=
  fun n passed rest => balanced?_go_append (congrFun (h.depth?_eq hd) n) passed rest

end Delimiters

/-- An argument that is taken only if it is closed has been closed. -/
theorem Argument.closed_of_ifClosed {a b : Argument} (h : a.ifClosed = some b) :
    a.closed = true := by
  unfold Argument.ifClosed at h
  split at h
  · next hclosed => exact hclosed
  · cases h

/-- **A closed argument** is a balanced text between delimiters. -/
theorem Delimiters.ifClosed_argument?_iff {d : Delimiters} {t : Text} {a : Argument}
    (hd : d.opener ≠ d.closer) : (d.argument? t).bind Argument.ifClosed = some a
      ↔ a.closed = true ∧ d.Balanced a.content
        ∧ t = d.opener :: a.content ++ [d.closer] ++ a.rest := by
  constructor
  · intro h
    obtain ⟨a', ha, hclosed⟩ := Option.bind_eq_some_iff.1 h
    cases Argument.eq_of_ifClosed hclosed
    have hclosed := Argument.closed_of_ifClosed hclosed
    refine ⟨hclosed, balanced_of_argument? hd ha hclosed, ?_⟩
    rcases eq_of_argument? ha with ⟨ht, -⟩ | ⟨-, -, hopen⟩
    · rw [ht, List.cons_append, List.cons_append, List.append_assoc, List.singleton_append]
    · rw [hclosed] at hopen
      cases hopen
  · obtain ⟨content, rest, closed⟩ := a
    rintro ⟨rfl, hcontent, rfl⟩
    rw [argument?_append hd (hcontent.passes hd)]
    rfl

/-! ## §4. Text on its way to the grid. -/

variable {t : Text} {n : Nat}

theorem braces_ne : braces.opener ≠ braces.closer := by decide

instance : DecidablePred braces.Balanced := fun t =>
  decidable_of_iff (braces.depth? t 0 = some 0) (Delimiters.balanced_iff braces_ne).symm

/-- A balanced text in braces is balanced. -/
theorem balanced_group (h : braces.Balanced t) : braces.Balanced (group t) := h.nested braces_ne

/-- The first brace argument of a balanced text closes. -/
theorem exists_closed_of_balanced (h : braces.Balanced t) (hmem : openBrace ∈ t) :
    ∃ a, braceArgument? (t.dropWhile (· ≠ openBrace)) = some a ∧ a.closed = true := by
  have hsplit : t.takeWhile (· ≠ openBrace) ++ t.dropWhile (· ≠ openBrace) = t :=
    List.takeWhile_append_dropWhile
  have hopen : openBrace ∉ t.takeWhile (· ≠ openBrace) := by
    intro hin
    simpa using List.mem_takeWhile_imp hin
  -- nothing is open in front of the first brace, so nothing is closed there
  have hclose : closeBrace ∉ t.takeWhile (· ≠ openBrace) := by
    intro hin
    have hcovered := h.covered _ (List.takeWhile_prefix (· ≠ openBrace))
    have hnone : (t.takeWhile (· ≠ openBrace)).count braces.opener = 0 :=
      List.count_eq_zero.2 hopen
    have hsome : 0 < (t.takeWhile (· ≠ openBrace)).count braces.closer :=
      List.count_pos_iff.2 hin
    omega
  have hdepth : braces.depth? (t.dropWhile (· ≠ openBrace)) 0 = some 0 := by
    have hall := (Delimiters.balanced_iff braces_ne).1 h
    rwa [← hsplit, Delimiters.depth?_append_left (Delimiters.depth?_of_not_mem hopen hclose)]
      at hall
  obtain ⟨a, ha⟩ : ∃ a, braceArgument? (t.dropWhile (· ≠ openBrace)) = some a := by
    have hhead := List.head?_dropWhile_not (fun b => decide (b ≠ openBrace)) t
    cases hdrop : t.dropWhile (· ≠ openBrace) with
    | nil =>
      rw [hdrop, List.append_nil] at hsplit
      exact absurd (hsplit.symm ▸ hmem) hopen
    | cons b u =>
      rw [hdrop] at hhead
      obtain rfl : b = openBrace := by simpa using hhead
      exact ⟨_, braceArgument?_openBrace u⟩
  exact ⟨a, ha, Delimiters.closed_of_depth? ha hdepth⟩

/-- Blanks have no depth. -/
theorem depth?_blanks {u : Text} (h : Blanks wideSpace u) : braces.depth? u = some :=
  Delimiters.depth?_of_forall (fun _ => h.mem) (by decide +kernel) (by decide +kernel)

/-- Blanks hold no brace, so trimming leaves the depths as they are. -/
theorem depth?_trim (t : Text) : braces.depth? (trim t) = braces.depth? t := by
  obtain ⟨u, v, hu, hv, ht⟩ := exists_blanks_trim t
  conv => rhs; rw [← ht]
  rw [Delimiters.depth?_append_right (depth?_blanks hv),
    Delimiters.depth?_append_left (depth?_blanks hu)]

/-- Glyphs that are no braces may be dropped. -/
theorem depth?_dropGlyphs {unwanted : List Text}
    (h : ∀ g ∈ unwanted, openBrace ∉ g ∧ closeBrace ∉ g) (t : Text) :
    braces.depth? (dropGlyphs unwanted t) = braces.depth? t := by
  conv => rhs; rw [← flatten_glyphs t]
  unfold dropGlyphs
  induction glyphs t with
  | nil => rfl
  | cons g gs ih =>
    rw [List.filter_cons, List.flatten_cons]
    split
    · rw [List.flatten_cons]
      exact Delimiters.depth?_append_congr rfl ih
    · next hg =>
      have hmem : g ∈ unwanted := by simpa using hg
      rw [ih, Delimiters.depth?_append_left
        (Delimiters.depth?_of_not_mem (h g hmem).1 (h g hmem).2)]

/-- Nor does a mark of punctuation hold one. -/
theorem depth?_clean (t : Text) : braces.depth? (clean t) = braces.depth? t := by
  unfold clean stripPunctuation stripBookMarks
  rw [depth?_dropGlyphs (by decide +kernel), depth?_dropGlyphs (by decide +kernel)]

/-! ## §5. Style wrappers. -/

/-- The options of the wrappers that are taken off a text. -/
def styleOptions (t : Text) : List Text :=
  match _h : cut? styleCommand t with
  | none => []
  | some c =>
    match _hb : braceArgument? (skipOption c.after) with
    | some body =>
      (optionalArgument? c.after).toList.map (·.content) ++ styleOptions (body.content ++ body.rest)
    | none => styleOptions (skipOption c.after)
termination_by t.length
decreasing_by
  · have h1 := length_of_cut? _h
    have h2 := length_skipOption_le c.after
    have h3 := Delimiters.length_lt_of_argument? _hb
    simp only [List.length_append]
    omega
  · have h1 := length_of_cut? _h
    have h2 := length_skipOption_le c.after
    have h4 : 0 < styleCommand.length := by decide
    omega

/-- The options of a wrapper come before those of the wrappers in it and behind it. -/
theorem styleOptions_of_wrapper {c : Cut} {body : Argument} (hc : cut? styleCommand t = some c)
    (hbody : braceArgument? (skipOption c.after) = some body) :
    styleOptions t = (optionalArgument? c.after).toList.map (·.content)
      ++ styleOptions (body.content ++ body.rest) := by
  rw [styleOptions]
  split
  · next hnone =>
    rw [hc] at hnone
    cases hnone
  · next c' hc' =>
    cases hc.symm.trans hc'
    split
    · next body' hbody' =>
      cases hbody.symm.trans hbody'
      rfl
    · next hnone =>
      rw [hbody] at hnone
      cases hnone

/-- A style without a body is passed over with its options, which are not taken off. -/
theorem styleOptions_of_bare {c : Cut} (hc : cut? styleCommand t = some c)
    (hbare : braceArgument? (skipOption c.after) = none) :
    styleOptions t = styleOptions (skipOption c.after) := by
  rw [styleOptions]
  split
  · next hnone =>
    rw [hc] at hnone
    cases hnone
  · next c' hc' =>
    cases hc.symm.trans hc'
    split
    · next body hbody =>
      rw [hbare] at hbody
      cases hbody
    · rfl

/-- An option that has no depth can be skipped. -/
theorem depth?_skipOption
    (hoption : ∀ a ∈ optionalArgument? t, braces.depth? a.content = some)
    (hne : skipOption t ≠ []) : braces.depth? (skipOption t) = braces.depth? t := by
  unfold skipOption at hne ⊢
  split
  · next a ha =>
    rw [ha] at hne
    have hspaces : braces.depth? (t.takeWhile isSpace) = some :=
      Delimiters.depth?_of_forall (fun _ => List.mem_takeWhile_imp) (by decide) (by decide)
    have hcontent := hoption a ha
    have hopen : braces.depth? [openBracket] = some :=
      Delimiters.depth?_of_not_mem (by decide) (by decide)
    have hclose : braces.depth? [closeBracket] = some :=
      Delimiters.depth?_of_not_mem (by decide) (by decide)
    rcases Delimiters.eq_of_argument? ha with ⟨heq, -⟩ | ⟨-, hrest, -⟩
    · have ht : t = t.takeWhile isSpace
          ++ ([openBracket] ++ (a.content ++ ([closeBracket] ++ a.rest))) := by
        conv => lhs; rw [← List.takeWhile_append_dropWhile (p := isSpace) (l := t), heq]
        rfl
      conv => rhs; rw [ht]
      rw [Delimiters.depth?_append_left hspaces, Delimiters.depth?_append_left hopen,
        Delimiters.depth?_append_left hcontent, Delimiters.depth?_append_left hclose]
    · exact absurd hrest hne
  · rfl

/-- **Unwrapping styles keeps the balance of what is wrapped.** -/
theorem depth?_unwrapStyles (hoptions : ∀ o ∈ styleOptions t, braces.Balanced o)
    (h : braces.depth? t n = some 0) : braces.depth? (unwrapStyles t) n = some 0 := by
  have hstyle : braces.depth? styleCommand = some :=
    Delimiters.depth?_of_not_mem (by decide +kernel) (by decide +kernel)
  fun_induction unwrapStyles t generalizing n with
  | case1 t hnone => exact h
  | case2 t c hc body hbody ih =>
    rw [styleOptions_of_wrapper hc hbody] at hoptions
    have hskip : braces.depth? (skipOption c.after) = braces.depth? c.after := by
      refine depth?_skipOption ?_ ?_
      · intro a ha
        refine (hoptions _ (List.mem_append_left _ ?_)).depth?_eq braces_ne
        simp [Option.mem_def.1 ha]
      · intro hnil
        rw [hnil] at hbody
        cases hbody
    have ht : t = c.before ++ styleCommand ++ c.after :=
      ((cut?_eq_some_iff (command_ne_nil _)).1 hc).1
    rw [ht, Delimiters.depth?_append, Delimiters.depth?_append_right hstyle,
      Option.bind_eq_some_iff] at h
    obtain ⟨m, hbefore, hafter⟩ := h
    rw [← hskip] at hafter
    -- the wrapper is closed, since the text leads out of it
    have hclosed := Delimiters.closed_of_depth? hbody hafter
    rw [Delimiters.depth?_argument braces_ne hbody hclosed] at hafter
    rw [Delimiters.depth?_append, hbefore]
    exact ih (fun o ho => hoptions o (List.mem_append_right _ ho)) hafter
  | case3 t c hc hnone ih =>
    rw [styleOptions_of_bare hc hnone] at hoptions
    have hoption := List.suffix_iff_eq_append.1 (skipOption_suffix c.after)
    have ht : t = c.before ++ styleCommand ++ c.after :=
      ((cut?_eq_some_iff (command_ne_nil _)).1 hc).1
    rw [ht, ← hoption, ← List.append_assoc, Delimiters.depth?_append,
      Option.bind_eq_some_iff] at h
    obtain ⟨m, hbefore, hafter⟩ := h
    rw [Delimiters.depth?_append, hbefore]
    exact ih hoptions hafter

end FolioGrid.Markup
