/-
  FolioGrid.Proofs.Document.Indents
  ────────────────────────────────
  **NO INDENT LEAVES THE PAGE.**

  Digits of any length stand in a content for its indents.  Whatever they are, the
  blocks that are read stand in range, the sums that elevation and layout make with
  their indents are machine words, and so a column stands between the highest place
  and the end of its grid (`indents_of_ofText`).
-/
import FolioGrid.Proofs.Dialect.Indents
import FolioGrid.Proofs.Document.Parts

namespace FolioGrid

open FolioGrid.Text FolioGrid.Markup

/-- The blocks of a document stand in range. -/
theorem Document.placed_of_mem_blocks {d : Dialect} (hd : d.BuiltIn) {content : Text}
    {doc : Document} (h : Document.ofText d content = .ok doc) : ∀ b ∈ doc.blocks, b.Placed := by
  obtain ⟨parts, -, rfl⟩ := Document.ofText_eq_ok_iff.1 h
  show ∀ b ∈ d.finish (readLines d (bodyLines parts.body)).blocks, b.Placed
  rw [hd.finish_eq]
  exact placed_of_mem_readLines hd

/-- The sums of a gloss in range are machine words. -/
theorem Gloss.Placed.passages?_eq {a : Gloss} (h : a.Placed) : a.passages? = some a.passages := by
  refine Gloss.passages?_eq fun s hs => ?_
  obtain ⟨habove, hbelow⟩ := h.segments s hs
  have hindent := h.indent
  unfold Fits
  omega

/-- And so is what a block in range leaves of a column. -/
theorem Block.Placed.capacity?_eq {b : Block} (h : b.Placed) {s : Settings}
    (hwidth : 1 ≤ s.width ∧ s.width ≤ 1000) :
    ∀ i ∈ b.indents, s.capacity? i = some (s.capacity i) := by
  intro i hi
  obtain ⟨habove, hbelow⟩ := h.of_mem_indents i hi
  refine Settings.capacity?_eq ?_
  unfold maxCount at hbelow
  unfold Fits
  omega

/-- **Indents stay in range, and no sum of them overflows.** In a dialect that has a name,
let a content be read, and let columns hold between 1 and 1000 characters.  Then the
blocks stand in range; elevation, the passages of glosses and the room below each indent
of a block can be computed with machine words, and come out the same; and in a layout,
each column stands between the highest place and the last one of the grid. -/
theorem indents_of_ofText {name content : Text} {d : Dialect} {doc : Document} {s : Settings}
    (hd : Dialect.named name = .ok d) (hdoc : Document.ofText d content = .ok doc)
    (hwidth : 1 ≤ s.width ∧ s.width ≤ 1000) :
    (∀ b ∈ doc.blocks, b.Placed)
      ∧ (∀ t base, base = 2 ∨ base = 4 →
        Elevation.expand? t base = some (Elevation.expand t base).value)
      ∧ (∀ a, Block.gloss a ∈ doc.blocks → a.passages? = some a.passages)
      ∧ (∀ b ∈ doc.blocks, ∀ i ∈ b.indents, s.capacity? i = some (s.capacity i))
      ∧ ∀ columns, layout s doc.blocks = .ok columns →
        ∀ c ∈ columns, ∀ i ∈ c.indents, -1 ≤ i ∧ i < s.width := by
  have hplaced := Document.placed_of_mem_blocks (Dialect.builtIn_of_named hd) hdoc
  refine ⟨hplaced, ?_, ?_, fun b hb => (hplaced b hb).capacity?_eq hwidth, ?_⟩
  · intro t base hbase
    refine Elevation.expand?_eq t ?_
    rcases hbase with rfl | rfl
    · exact ⟨by decide, by decide⟩
    · exact ⟨by decide, by decide⟩
  · intro a ha
    cases hplaced _ ha with
    | gloss h => exact h.passages?_eq
  · intro columns hcolumns
    exact stands_of_mem_layout (fun b hb i hi => ((hplaced b hb).of_mem_indents i hi).1) hcolumns

/-- A page with a level, a gloss that rises as far as a number can say, and a number
that is too large. -/
def steepPage : Text :=
  inDocument (joinLines
    [utf8 "\\条目[3]\x7b周易\x7d",
      utf8 "\\注\x7b臣\\相对抬头[2147483647]\x7b御\x7d\x7d",
      utf8 "\\begin\x7b段落\x7d[indent=2147483648,first-indent=1]", utf8 "易",
      utf8 "\\end\x7b段落\x7d"])

/-- Its gloss, which rises from its indent to the highest place. -/
def steepGloss : Gloss :=
  ⟨utf8 "臣御", 2, [⟨utf8 "臣", 0, false⟩, ⟨utf8 "御", -3, true⟩]⟩

/-- What it says. -/
def steepPageRead : Document where
  preamble := documentBegin
  preserved := [lineFeed]
  blocks := [.entry 3 (utf8 "周易"), .gloss steepGloss, .paragraph ⟨utf8 "易", 0, 1⟩]
  footer := documentEnd
  unbalanced := 0
  unrecognized := 0
  notices :=
    [.elevationClamped 2147483647 2 (-1), .malformedIndent (utf8 "indent") (utf8 "2147483648")]

/-- Where it stands. -/
def steepPageColumns : List Column :=
  [.single (utf8 "周易") 3,
    .dual { indent := 2, right := utf8 "臣", left := utf8 "御", leftIndent := some (-1) },
    .single (utf8 "易") 1]

theorem indents_steepPage :
    (∀ b ∈ steepPageRead.blocks, b.Placed)
      ∧ steepGloss.passages? = some [⟨utf8 "臣", 2, false⟩, ⟨utf8 "御", -1, true⟩]
      ∧ ∀ c ∈ steepPageColumns, ∀ i ∈ c.indents, -1 ≤ i ∧ i < 21 := by
  obtain ⟨hplaced, -, hpassages, -, hstand⟩ := indents_of_ofText (s := .standard)
    (rfl : Dialect.named (utf8 "siku-mulu") = .ok Catalogue.dialect)
    (by decide +kernel : Document.ofText Catalogue.dialect steepPage = .ok steepPageRead)
    (by decide)
  refine ⟨hplaced, ?_, hstand _ (by decide +kernel)⟩
  rw [hpassages steepGloss (by decide +kernel)]
  rfl

end FolioGrid
