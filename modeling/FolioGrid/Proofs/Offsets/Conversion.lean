/-
  FolioGrid.Proofs.Offsets.Conversion
  ────────────────────────────────
  **CONVERSIONS BY OFFSETS.**

  A conversion whose steps read, lay out and write by offsets, each access checked.  It
  gives what a conversion gives, so no check ever fails.

  Main result: `convert_checked`.  What can go wrong for any bytes at all is that a mark
  of the document is missing or in the wrong place, or that an indent leaves no room.
-/
import FolioGrid.Proofs.Document.Splitting
import FolioGrid.Proofs.Layout.Room
import FolioGrid.Proofs.Offsets.Document
import FolioGrid.Proofs.Offsets.GridMarkup
import FolioGrid.Proofs.Offsets.Layout

namespace FolioGrid.Offsets

open FolioGrid.Text

/-- Convert a text. -/
def convert (s : Settings) (k : Template) (content : Text) : Checked Conversion := do
  let doc ← readDocument k content
  let columns ← layout s doc.blocks
  let output ← generate s k.dialect doc.preamble doc.preserved columns doc.footer
  pure
    { output := output
      blocks := doc.blocks.length
      columns := columns.length
      counts := countKinds doc.blocks
      warnings := doc.warnings }

/-- A document that has been read has a preamble. -/
theorem preamble_ne_nil {d : Dialect} {t : Text} {doc : Document}
    (h : Document.ofText d t = .ok doc) : doc.preamble ≠ [] := by
  obtain ⟨parts, hparts, rfl⟩ := Document.ofText_eq_ok_iff.1 h
  obtain ⟨above, hpreamble, -⟩ := Parts.preamble_of_ofText hparts
  show parts.preamble ≠ []
  rw [hpreamble]
  exact List.append_ne_nil_of_right_ne_nil above (by decide)

/-- Converting by offsets is converting. -/
theorem convert_eq (s : Settings) (k : Template) (content : Text) :
    convert s k content = refusing (FolioGrid.convert s k.dialect content).value := by
  unfold convert FolioGrid.convert
  rw [readDocument_eq]
  cases hdoc : Document.ofText k.dialect content with
  | error failure => rfl
  | ok doc =>
    have hpreamble := preamble_ne_nil hdoc
    unfold Document.convert
    simp only [Except.map, refusing_ok, ok_bind, layout_eq]
    cases FolioGrid.layout s doc.blocks with
    | error failure => rfl
    | ok columns =>
      rw [refusing_ok, ok_bind, generate_eq s k.dialect hpreamble]
      rfl

/-- A layout that fails does so at an indent that a block uses and that leaves no room. -/
theorem exists_tight_of_layout {s : Settings} {blocks : List Block} {failure : Failure}
    (h : FolioGrid.layout s blocks = .error failure) :
    ∃ b ∈ blocks, ∃ indent ∈ b.indentsUsed s.width,
      s.width ≤ indent ∧ failure = .noRoom indent s.width := by
  obtain ⟨indent, hfirst, rfl⟩ := ((failsAt_layout s blocks).eq_error_iff failure).1 h
  unfold firstTight at hfirst
  have htight := List.find?_some hfirst
  obtain ⟨b, hb, hindent⟩ := List.mem_flatMap.1 (List.mem_of_find?_eq_some hfirst)
  exact ⟨b, hb, indent, hindent, of_decide_eq_true htight, rfl⟩

/-- **No access of a conversion goes wrong.**  For any settings, either template and any
bytes, the conversion in which each access is checked is the conversion: no offset lies
beyond its end, no difference is negative, no line is read where none is left, and nothing
is counted that is no numeral.  So there is a result; or a mark of the document is missing;
or the first mark of its end stands in front of the first one of its begin; or a block uses
an indent that leaves no room. -/
theorem convert_checked (s : Settings) (k : Template) (content : Text) :
    convert s k content = refusing (FolioGrid.convert s k.dialect content).value
      ∧ ((∃ c, convert s k content = .ok c)
        ∨ (convert s k content = .error (.refused .documentNotFound)
          ∧ (¬ documentBegin <:+: content ∨ ¬ documentEnd <:+: content))
        ∨ (convert s k content = .error (.refused .documentReversed)
          ∧ ∃ i j, FirstAt documentBegin content i ∧ FirstAt documentEnd content j ∧ j < i)
        ∨ ∃ indent, convert s k content = .error (.refused (.noRoom indent s.width))
          ∧ s.width ≤ indent
          ∧ ∃ doc, Document.ofText k.dialect content = .ok doc
            ∧ ∃ b ∈ doc.blocks, indent ∈ b.indentsUsed s.width) := by
  have heq := convert_eq s k content
  refine ⟨heq, ?_⟩
  rw [heq]
  unfold FolioGrid.convert
  cases hdoc : Document.ofText k.dialect content with
  | error failure =>
    cases Document.ofText_eq_error_iff.1 hdoc with
    | notFound h => exact Or.inr (Or.inl ⟨rfl, h⟩)
    | reversed hbegin hend h => exact Or.inr (Or.inr (Or.inl ⟨rfl, _, _, hbegin, hend, h⟩))
  | ok doc =>
    unfold Document.convert
    dsimp only
    cases hlayout : FolioGrid.layout s doc.blocks with
    | error failure =>
      obtain ⟨b, hb, indent, hused, htight, rfl⟩ := exists_tight_of_layout hlayout
      exact Or.inr (Or.inr (Or.inr ⟨indent, rfl, htight, doc, rfl, b, hb, hused⟩))
    | ok columns => exact Or.inl ⟨_, rfl⟩

end FolioGrid.Offsets
