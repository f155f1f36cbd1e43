/-
  FolioGrid.Proofs.Document.Splitting
  ────────────────────────────────
  **WHERE A TEXT IS CUT INTO PARTS.**

  A text is cut at two marks, the first one of each kind.  It has no parts
  exactly if one of them is missing or if they stand the wrong way round
  (`Parts.Refused`); else nothing of it is lost, and what each part holds is
  known (`Parts.Divides`):

      preamble    up to and with the first mark of the document's begin
      preserved   what stands in front of the body's environment, if it has one
      body        from there on, or all
      footer      from the first mark of the document's end on

  The marks are looked for each by itself.  That they do not overlap, so that
  the body is never cut short, is `length_le_of_marks`.

  Main result: `Document.ofText_divides`.
-/
import FolioGrid.Proofs.Document.Parts

namespace FolioGrid

open FolioGrid.Text FolioGrid.Markup

variable {t : Text} {parts : Parts}

/-! ## §1. Positions of the marks. -/

/-- Why a text has no parts. -/
inductive Parts.Refused (t : Text) : Failure → Prop where
  /-- A mark is missing. -/
  | notFound (h : ¬ documentBegin <:+: t ∨ ¬ documentEnd <:+: t) : Refused t .documentNotFound
  /-- The first mark of the end stands before the first one of the begin. -/
  | reversed {i j : Nat} (hbegin : FirstAt documentBegin t i) (hend : FirstAt documentEnd t j)
      (h : j < i) : Refused t .documentReversed

/-- What the parts of a text are, with the positions of the two marks. -/
structure Parts.Divides (parts : Parts) (t : Text) (i j : Nat) : Prop where
  /-- The document begins at the first mark of its begin. -/
  atBegin : FirstAt documentBegin t i
  /-- It ends at the first mark of its end. -/
  atEnd : FirstAt documentEnd t j
  /-- The one mark ends before the other starts. -/
  apart : i + documentBegin.length ≤ j
  /-- The preamble is all up to and with the first mark. -/
  preamble : parts.preamble = t.take (i + documentBegin.length)
  /-- The footer is all from the second mark on. -/
  footer : parts.footer = t.drop j
  /-- The parts are the text, one behind the other. -/
  whole : t = parts.preamble ++ parts.preserved ++ parts.body ++ parts.footer
  /-- No environment of a body begins in what is preserved. -/
  preserved : ∀ m ∈ bodyBegins, ¬ m <:+: parts.preserved
  /-- The body starts with its environment; or it has none, and nothing is preserved. -/
  body : (∃ m ∈ bodyBegins, m <+: parts.body)
    ∨ parts.preserved = [] ∧ ∀ m ∈ bodyBegins, ¬ m <:+: parts.body

/-- **The two marks do not overlap**: the backslash of the one stands nowhere
inside the other. -/
theorem length_le_of_marks {i j : Nat} (hi : documentBegin <+: t.drop i)
    (hj : documentEnd <+: t.drop j) (h : i ≤ j) : i + documentBegin.length ≤ j := by
  obtain ⟨k, rfl⟩ := Nat.exists_eq_add_of_le h
  by_contra hoverlap
  have hk : k < documentBegin.length := by omega
  obtain ⟨z, hz⟩ := hi
  rw [← List.drop_drop, ← hz, List.drop_append_of_le_length (Nat.le_of_lt hk)] at hj
  have hhead : (documentBegin.drop k).head? = some backslash := by
    rw [List.drop_eq_getElem_cons hk] at hj ⊢
    rw [(List.cons_prefix_cons.1 hj).1]
    rfl
  have honly : ∀ k < documentBegin.length,
      (documentBegin.drop k).head? = some backslash → k = 0 := by
    decide +kernel
  -- so both marks would stand at one place, and they are different
  rw [honly k hk hhead, List.drop_zero] at hj
  rcases List.prefix_or_prefix_of_prefix hj (List.prefix_append documentBegin z) with h | h
  · exact absurd h (by decide +kernel)
  · exact absurd h (by decide +kernel)

/-! ## §2. Parts. -/

/-- The front matter of a text and its body. -/
theorem splitBody_divides (t : Text) :
    (splitBody t).1 ++ (splitBody t).2 = t
      ∧ (∀ m ∈ bodyBegins, ¬ m <:+: (splitBody t).1)
      ∧ ((∃ m ∈ bodyBegins, m <+: (splitBody t).2)
        ∨ (splitBody t).1 = [] ∧ ∀ m ∈ bodyBegins, ¬ m <:+: (splitBody t).2) := by
  have hne : [] ∉ bodyBegins := by decide
  unfold splitBody
  split
  · next c hc =>
    refine ⟨?_, not_infix_before_of_cutAny? hne hc, Or.inl ?_⟩
    · rw [← List.append_assoc, append_of_cutAny? hc]
    · exact ⟨c.found, found_mem_of_cutAny? hc, List.prefix_append _ _⟩
  · next hnone =>
    refine ⟨rfl, ?_, Or.inr ⟨rfl, cutAny?_eq_none_iff.1 hnone⟩⟩
    intro m hm hin
    rw [List.infix_nil.1 hin] at hm
    exact hne hm

/-- The text between two positions that are given by the length of what stands
before them. -/
theorem eq_append_of_heads {x y u v : Text} (h : x ++ y = u ++ v) (hle : x.length ≤ u.length) :
    u = x ++ u.drop x.length := by
  obtain ⟨z, rfl⟩ := List.prefix_of_prefix_length_le ⟨y, h⟩ (List.prefix_append u v) hle
  rw [List.drop_left]

theorem Parts.divides_of_ofText (h : Parts.ofText t = .ok parts) :
    ∃ i j, parts.Divides t i j := by
  unfold Parts.ofText at h
  split at h
  · next b e hb he =>
    split at h
    · cases h
    · next horder =>
      have hbegin := firstAt_of_cut? (by decide) hb
      have hend := firstAt_of_cut? (by decide) he
      have hapart := length_le_of_marks hbegin.here hend.here (Nat.le_of_not_lt horder)
      have htb : (b.before ++ b.found) ++ b.after = t := append_of_cutAny? hb
      have hte : e.before ++ (e.found ++ e.after) = t := by
        rw [← List.append_assoc]
        exact append_of_cutAny? he
      have hlen : (b.before ++ b.found).length = b.before.length + documentBegin.length := by
        rw [List.length_append, found_of_cut? hb]
      -- what stands in front of the end is the preamble and what is cut further
      have hinner := eq_append_of_heads (htb.trans hte.symm) (hlen ▸ hapart)
      obtain ⟨hwhole, hpreserved, hbody⟩ :=
        splitBody_divides (e.before.drop (b.before ++ b.found).length)
      cases h
      refine ⟨b.before.length, e.before.length, hbegin, hend, hapart, ?_, ?_, ?_, hpreserved, hbody⟩
      · rw [← hlen, ← htb, List.take_left]
      · rw [← hte, List.drop_left]
      · show t = b.before ++ b.found ++ (splitBody _).1 ++ (splitBody _).2 ++ (e.found ++ e.after)
        rw [List.append_assoc (b.before ++ b.found), hwhole, ← hinner, hte]
  · cases h

theorem Parts.ofText_eq_error_iff {failure : Failure} :
    Parts.ofText t = .error failure ↔ Parts.Refused t failure := by
  unfold Parts.ofText
  split
  · next b e hb he =>
    have hbegin := firstAt_of_cut? (by decide) hb
    have hend := firstAt_of_cut? (by decide) he
    split
    · next horder =>
      constructor
      · intro h
        cases h
        exact .reversed hbegin hend horder
      · intro h
        cases h with
        | notFound h =>
          rcases h with h | h
          · exact absurd hbegin.isInfix h
          · exact absurd hend.isInfix h
        | reversed => rfl
    · next horder =>
      constructor
      · intro h
        cases h
      · intro h
        cases h with
        | notFound h =>
          rcases h with h | h
          · exact absurd hbegin.isInfix h
          · exact absurd hend.isInfix h
        | reversed hi hj hlt =>
          rw [hbegin.eq hi, hend.eq hj] at horder
          exact absurd hlt horder
  · next hmissing =>
    have hnone : ¬ documentBegin <:+: t ∨ ¬ documentEnd <:+: t := by
      rw [← cut?_eq_none_iff, ← cut?_eq_none_iff]
      cases hb : cut? documentBegin t with
      | none => exact Or.inl rfl
      | some b =>
        cases he : cut? documentEnd t with
        | none => exact Or.inr rfl
        | some e => exact absurd he (hmissing b e hb)
    constructor
    · intro h
      cases h
      exact .notFound hnone
    · intro h
      cases h with
      | notFound => rfl
      | reversed hi hj hlt =>
        rcases hnone with h | h
        · exact absurd hi.isInfix h
        · exact absurd hj.isInfix h

/-! ## §3. Documents. -/

/-- Nothing but the parts of a text can be refused. -/
theorem Document.ofText_eq_error_iff {d : Dialect} {failure : Failure} :
    Document.ofText d t = .error failure ↔ Parts.Refused t failure := by
  rw [← Parts.ofText_eq_error_iff]
  unfold Document.ofText
  cases Parts.ofText t with
  | error e =>
    constructor
    · intro h
      exact congrArg Except.error (Except.error.inj h)
    · intro h
      exact congrArg Except.error (Except.error.inj h)
  | ok parts =>
    constructor
    · intro h
      cases h
    · intro h
      cases h

/-- **A text is cut exactly at its first marks.**  In any dialect, reading it fails
if and only if it has no parts, and then for the reason that it has none.  Otherwise
there is a document, and what it says is read from parts that divide the text. -/
theorem Document.ofText_divides (d : Dialect) (t : Text) :
    (∀ failure, Document.ofText d t = .error failure ↔ Parts.Refused t failure)
      ∧ ((∀ failure, ¬ Parts.Refused t failure) →
        ∃ doc main i j, Document.ofText d t = .ok doc
          ∧ Parts.Divides ⟨doc.preamble, doc.preserved, main, doc.footer⟩ t i j
          ∧ doc = Parts.read ⟨doc.preamble, doc.preserved, main, doc.footer⟩ d) := by
  refine ⟨fun _ => Document.ofText_eq_error_iff, fun hparts => ?_⟩
  cases hdoc : Document.ofText d t with
  | error failure => exact absurd (Document.ofText_eq_error_iff.1 hdoc) (hparts failure)
  | ok doc =>
    obtain ⟨parts, hparts, rfl⟩ := Document.ofText_eq_ok_iff.1 hdoc
    obtain ⟨i, j, hdivides⟩ := Parts.divides_of_ofText hparts
    exact ⟨_, parts.body, i, j, rfl, hdivides, rfl⟩

end FolioGrid
