/-
  FolioGrid.Proofs.Document.Sequence
  ────────────────────────────────
  **DOCUMENTS IN SEQUENCE.**

  If the body of a bare document leaves nothing open, further lines below it add
  what they say in a document of their own, and nothing else
  (`Document.ofText_joinLines_append`).
-/
import FolioGrid.Proofs.Document.Parts
import FolioGrid.Proofs.Reading.Closed

namespace FolioGrid

open FolioGrid.Text FolioGrid.Markup

variable {d : Dialect} {ls A B : List Text}

/-- The lines of a bare document say what is read from them with an empty one
below, whatever white stands in front. -/
theorem content_readLines_joinLines (hd : d.BuiltIn) (hlf : ∀ l ∈ ls, lineFeed ∉ l) :
    (readLines d (lines ((joinLines ls ++ [lineFeed]).dropWhile isSpace))).content
      = (readLines d (ls ++ [[]])).content := by
  rw [content_readLines_dropWhile hd]
  cases ls with
  | nil => exact congrArg Reading.content (readLines_blank [[]])
  | cons first rest => rw [lines_joinLines_concat (List.cons_ne_nil first rest) hlf]

/-- The bare document of a reading. -/
def Document.bare (r : Reading) : Document where
  preamble := documentBegin
  preserved := [lineFeed]
  blocks := r.blocks
  footer := documentEnd
  unbalanced := r.unbalanced
  unrecognized := r.unrecognized
  notices := r.notices

/-- Marks of an end stand in no body of lines that hold none. -/
theorem not_infix_joinLines (hends : ∀ l ∈ ls, ∀ m ∈ documentEnd :: bodyEnds, ¬ m <:+: l) :
    ∀ m ∈ documentEnd :: bodyEnds, ¬ m <:+: joinLines ls := by
  intro m hm hin
  have hmark : ∀ m ∈ documentEnd :: bodyEnds, m ≠ [] ∧ lineFeed ∉ m := by decide
  obtain ⟨l, hl, hml⟩ := (infix_joinLines_iff (hmark m hm).1 (hmark m hm).2).1 hin
  exact hends l hl m hm hml

/-- A mark of an end starts with its only backslash. -/
theorem exists_of_mem_endMarks {m : Text} (hm : m ∈ documentEnd :: bodyEnds) :
    ∃ p, m = backslash :: p ∧ backslash ∉ p := by
  have hmarks : ∀ m ∈ documentEnd :: bodyEnds, m.head? = some backslash ∧ backslash ∉ m.tail := by
    decide +kernel
  obtain ⟨hhead, htail⟩ := hmarks m hm
  obtain ⟨p, rfl⟩ := List.head?_eq_some_iff.1 hhead
  exact ⟨p, rfl, htail⟩

/-- A command that is no mark of an end makes none with what stands behind it. -/
theorem not_infix_command_append {name x u : Text}
    (hname : ∀ m ∈ documentEnd :: bodyEnds,
      ¬ m <+: backslash :: name ∧ ¬ backslash :: name <+: m)
    (hx : backslash ∉ name ++ x) (hu : ∀ m ∈ documentEnd :: bodyEnds, ¬ m <:+: u) :
    ∀ m ∈ documentEnd :: bodyEnds, ¬ m <:+: backslash :: name ++ x ++ u := by
  intro m hm hin
  obtain ⟨p, rfl, -⟩ := exists_of_mem_endMarks hm
  rw [List.cons_append, List.cons_append, List.infix_cons_iff] at hin
  rcases hin with hprefix | hin
  · have hboth : backslash :: name <+: backslash :: (name ++ x ++ u) := by
      rw [List.append_assoc]
      exact List.prefix_append (backslash :: name) (x ++ u)
    rcases List.prefix_or_prefix_of_prefix hprefix hboth with h | h
    · exact (hname _ hm).1 h
    · exact (hname _ hm).2 h
  · exact hu _ hm (infix_of_infix_append hx hin)

/-- With no backslash behind it, it stands in a text without marks of an end. -/
theorem not_infix_command {name x : Text}
    (hname : ∀ m ∈ documentEnd :: bodyEnds,
      ¬ m <+: backslash :: name ∧ ¬ backslash :: name <+: m)
    (hx : backslash ∉ name ++ x) :
    ∀ m ∈ documentEnd :: bodyEnds, ¬ m <:+: backslash :: name ++ x := by
  have hnil : ∀ m ∈ documentEnd :: bodyEnds, ¬ m <:+: [] := by
    intro m hm hin
    obtain ⟨p, rfl, -⟩ := exists_of_mem_endMarks hm
    exact absurd (List.infix_nil.1 hin) (List.cons_ne_nil _ p)
  have hnone := not_infix_command_append hname hx hnil
  rwa [List.append_nil] at hnone

/-- Lines that hold no mark of an end are read as they stand. -/
theorem Document.ofText_joinLines (hd : d.BuiltIn) (hlf : ∀ l ∈ ls, lineFeed ∉ l)
    (hends : ∀ l ∈ ls, ∀ m ∈ documentEnd :: bodyEnds, ¬ m <:+: l) :
    Document.ofText d (inDocument (joinLines ls)) = .ok (.bare (readLines d (ls ++ [[]]))) := by
  rw [Document.ofText_inDocument d (not_infix_joinLines hends)]
  dsimp only
  rw [hd.finish_eq]
  -- a document keeps of a reading all but the number of lines
  have hbare := congrArg Document.bare (content_readLines_joinLines hd hlf)
  exact congrArg Except.ok hbare

/-- **Documents are read piece by piece.** In a dialect that has a name, let two
lists of lines hold no mark at which a body or its document ends.  Their bare
documents, and that of both lists in sequence, can be read; and if the first one
leaves no command open, the document of both says what the first one says and
then what the second one does. -/
theorem Document.ofText_joinLines_append {name : Text} (hd : Dialect.named name = .ok d)
    (hlf : ∀ l ∈ A ++ B, lineFeed ∉ l)
    (hends : ∀ l ∈ A ++ B, ∀ m ∈ documentEnd :: bodyEnds, ¬ m <:+: l) :
    ∃ a b ab, Document.ofText d (inDocument (joinLines A)) = .ok a
      ∧ Document.ofText d (inDocument (joinLines B)) = .ok b
      ∧ Document.ofText d (inDocument (joinLines (A ++ B))) = .ok ab
      ∧ (a.unbalanced = 0 →
        ab.blocks = a.blocks ++ b.blocks
          ∧ ab.unbalanced = a.unbalanced + b.unbalanced
          ∧ ab.unrecognized = a.unrecognized + b.unrecognized
          ∧ ab.notices = a.notices ++ b.notices) := by
  have hbuiltIn := Dialect.builtIn_of_named hd
  have ha := Document.ofText_joinLines hbuiltIn (fun l hl => hlf l (List.mem_append_left B hl))
    fun l hl => hends l (List.mem_append_left B hl)
  have hb := Document.ofText_joinLines hbuiltIn (fun l hl => hlf l (List.mem_append_right A hl))
    fun l hl => hends l (List.mem_append_right A hl)
  refine ⟨_, _, _, ha, hb, Document.ofText_joinLines hbuiltIn hlf hends, ?_⟩
  intro hclosed
  have hcontent := content_readLines_append hbuiltIn hclosed (B ++ [[]])
  rw [← List.append_assoc] at hcontent
  exact ⟨congrArg Reading.blocks hcontent, congrArg Reading.unbalanced hcontent,
    congrArg Reading.unrecognized hcontent, congrArg Reading.notices hcontent⟩

/-- A line of text and a gloss over two lines. -/
def closedLines : List Text := [utf8 "易", utf8 "\\注\x7b宋", utf8 "人撰\x7d"]

/-- An entry, a command that nothing knows, and a seal that does not close. -/
def openLines : List Text :=
  [utf8 "\\条目[1]\x7b周易\x7d", utf8 "\\卷", utf8 "\\印章[a]\x7b甲", utf8 "書"]

theorem blocks_closedLines_append_openLines :
    ∃ ab, Document.ofText Catalogue.dialect (inDocument (joinLines (closedLines ++ openLines)))
        = .ok ab
      ∧ ab.blocks = [.text (utf8 "易") 0, .gloss ⟨utf8 "宋人撰", 2, []⟩, .entry 1 (utf8 "周易"),
          .text (utf8 "\\卷") 0, .stamp (utf8 "\\印章[a]\x7b甲書")]
      ∧ ab.unbalanced = 1 ∧ ab.unrecognized = 1 := by
  obtain ⟨a, b, ab, ha, hb, hab, hsum⟩ := Document.ofText_joinLines_append (A := closedLines)
    (B := openLines) (rfl : Dialect.named (utf8 "siku-mulu") = .ok Catalogue.dialect)
    (by decide +kernel) (by decide +kernel)
  have hclosed : Document.ofText Catalogue.dialect (inDocument (joinLines closedLines))
      = .ok (.bare { blocks := [.text (utf8 "易") 0, .gloss ⟨utf8 "宋人撰", 2, []⟩] }) := by
    decide +kernel
  have hopen : Document.ofText Catalogue.dialect (inDocument (joinLines openLines))
      = .ok (.bare
          { blocks := [.entry 1 (utf8 "周易"), .text (utf8 "\\卷") 0,
              .stamp (utf8 "\\印章[a]\x7b甲書")]
            unbalanced := 1
            unrecognized := 1
            notices := [.unbalanced (command "印章") 3 6] }) := by
    decide +kernel
  rw [hclosed] at ha
  rw [hopen] at hb
  cases ha
  cases hb
  obtain ⟨hblocks, hunbalanced, hunrecognized, -⟩ := hsum rfl
  exact ⟨ab, hab, hblocks, hunbalanced, hunrecognized⟩

end FolioGrid
