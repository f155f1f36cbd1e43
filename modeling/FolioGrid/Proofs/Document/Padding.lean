/-
  FolioGrid.Proofs.Document.Padding
  ────────────────────────────────
  **THE ENDS OF LINES.**

  A document may be typed with tabs in front of its lines, or with carriage
  returns behind them: blanks at the ends of the lines of a body change nothing in
  what is read, not even where a command is left open
  (`Document.ofText_padded`).
-/
import FolioGrid.Proofs.Document.Sequence

namespace FolioGrid

open FolioGrid.Text FolioGrid.Markup

/-! ## §1. Padded lines. -/

/-- A line and the same line with blanks in front and behind, in whatever number. -/
inductive Padded : Text → Text → Prop where
  /-- Blanks around a line, which stay on its line. -/
  | mk {u v : Text} (l : Text) (hu : Blanks wideSpace u) (hv : Blanks wideSpace v)
      (hlf : lineFeed ∉ u ++ v) : Padded l (u ++ l ++ v)

variable {l l' p : Text} {ls ls' : List Text}

/-- What is padded is trimmed to the same. -/
theorem Padded.trim_eq (h : Padded l l') : trim l' = trim l := by
  obtain ⟨l, hu, hv, -⟩ := h
  rw [trim_append_blanks hv, trim_blanks_append hu]

theorem Padded.lineFeed_not_mem (h : Padded l l') (hl : lineFeed ∉ l) : lineFeed ∉ l' := by
  obtain ⟨l, -, -, hlf⟩ := h
  simp only [List.mem_append, not_or] at hlf ⊢
  exact ⟨⟨hlf.1, hl⟩, hlf.2⟩

/-- A pattern that shares no byte with a blank occurs in the line or not at all. -/
theorem Padded.infix_iff (h : Padded l l') (hp : p ≠ [])
    (hblank : ∀ b ∈ p, isSpace b = false ∧ b ∉ wideSpace) : p <:+: l' ↔ p <:+: l := by
  obtain ⟨l, hu, hv, -⟩ := h
  exact infix_append_blanks_iff hu hv hp hblank

/-- So padded lines are the same once they are trimmed. -/
theorem map_trim_eq_of_padded (h : List.Forall₂ Padded ls ls') : ls.map trim = ls'.map trim := by
  induction h with
  | nil => rfl
  | cons hl _ ih => rw [List.map_cons, List.map_cons, hl.trim_eq, ih]

/-- What a line hands on to its padded form, all lines do. -/
theorem forall_mem_of_padded {P : Text → Prop} (hP : ∀ {l l'}, Padded l l' → P l → P l')
    (h : List.Forall₂ Padded ls ls') (hls : ∀ l ∈ ls, P l) : ∀ l ∈ ls', P l := by
  induction h with
  | nil => exact hls
  | cons hl _ ih =>
    rw [List.forall_mem_cons] at hls ⊢
    exact ⟨hP hl hls.1, ih hls.2⟩

/-! ## §2. Documents. -/

/-- A bare document of padded lines says what the lines say. -/
theorem Document.ofText_joinLines_of_padded {d : Dialect} (hd : d.BuiltIn)
    (hlf : ∀ l ∈ ls, lineFeed ∉ l)
    (hends : ∀ l ∈ ls, ∀ m ∈ documentEnd :: bodyEnds, ¬ m <:+: l)
    (hpadded : List.Forall₂ Padded ls ls') :
    Document.ofText d (inDocument (joinLines ls')) = .ok (.bare (readLines d (ls ++ [[]]))) := by
  have hlf' : ∀ l ∈ ls', lineFeed ∉ l :=
    forall_mem_of_padded (fun h => h.lineFeed_not_mem) hpadded hlf
  have hmarks : ∀ m ∈ documentEnd :: bodyEnds,
      m ≠ [] ∧ ∀ b ∈ m, isSpace b = false ∧ b ∉ wideSpace := by
    decide +kernel
  have hends' : ∀ l ∈ ls', ∀ m ∈ documentEnd :: bodyEnds, ¬ m <:+: l := by
    refine forall_mem_of_padded (fun h hl m hm => ?_) hpadded hends
    rw [h.infix_iff (hmarks m hm).1 (hmarks m hm).2]
    exact hl m hm
  have hread : readLines d (ls ++ [[]]) = readLines d (ls' ++ [[]]) := by
    refine readLines_congr hd ?_
    rw [List.map_append, List.map_append, map_trim_eq_of_padded hpadded]
  rw [Document.ofText_joinLines hd hlf' hends', hread]

/-- **Blanks at the ends of lines make no difference.** In a dialect that has a
name, let the lines of a body hold no mark at which it or its document ends, and
let `ls'` be the same lines with blanks around each.  Both bare documents can
be read, and they are the same: blocks, damage and reports. -/
theorem Document.ofText_padded {name : Text} {d : Dialect} (hd : Dialect.named name = .ok d)
    (hlf : ∀ l ∈ ls, lineFeed ∉ l)
    (hends : ∀ l ∈ ls, ∀ m ∈ documentEnd :: bodyEnds, ¬ m <:+: l)
    (hpadded : List.Forall₂ Padded ls ls') :
    ∃ doc, Document.ofText d (inDocument (joinLines ls)) = .ok doc
      ∧ Document.ofText d (inDocument (joinLines ls')) = .ok doc := by
  have hbuiltIn := Dialect.builtIn_of_named hd
  exact ⟨_, Document.ofText_joinLines hbuiltIn hlf hends,
    Document.ofText_joinLines_of_padded hbuiltIn hlf hends hpadded⟩

/-- A gloss over two lines, and a seal that does not close. -/
def spreadLines : List Text :=
  [utf8 "\\注\x7b宋", utf8 "人撰\x7d", utf8 "\\印章[a]\x7b甲", utf8 "書"]

/-- The same with carriage returns, and with other blanks here and there. -/
def paddedLines : List Text :=
  [[0x09] ++ utf8 "\\注\x7b宋" ++ [0x0D], wideSpace ++ utf8 "人撰\x7d" ++ [0x20, 0x0D],
    [] ++ utf8 "\\印章[a]\x7b甲" ++ [0x0D], [0x0C] ++ utf8 "書" ++ (wideSpace ++ [0x0D])]

/-- A gloss on two lines and a seal that does not close, with all kinds of white. -/
theorem ofText_paddedLines :
    Document.ofText Catalogue.dialect (inDocument (joinLines paddedLines))
      = .ok (.bare
          { blocks := [.gloss ⟨utf8 "宋人撰", 2, []⟩, .stamp (utf8 "\\印章[a]\x7b甲書")]
            unbalanced := 1
            notices := [.unbalanced (command "印章") 3 6] }) := by
  have hcr : Blanks wideSpace [0x0D] := .space rfl .nil
  have hpadded : List.Forall₂ Padded spreadLines paddedLines :=
    .cons (.mk _ (.space rfl .nil) hcr (by decide))
      (.cons (.mk _ (.wide .nil) (.space rfl hcr) (by decide))
        (.cons (.mk _ .nil hcr (by decide))
          (.cons (.mk _ (.space rfl .nil) (.wide hcr) (by decide)) .nil)))
  obtain ⟨doc, hdoc, hpadded⟩ := Document.ofText_padded (d := Catalogue.dialect)
    (rfl : Dialect.named (utf8 "siku-mulu") = .ok Catalogue.dialect)
    (by decide +kernel) (by decide +kernel) hpadded
  rw [hpadded, ← hdoc]
  decide +kernel

end FolioGrid
