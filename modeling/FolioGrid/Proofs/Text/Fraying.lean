/-
  FolioGrid.Proofs.Text.Fraying
  ────────────────────────────────
  **WHAT THE STRIP OF PUNCTUATION LEAVES AT THE ENDS.**

  Words are trimmed before their punctuation is removed, and not again behind it.
  So a blank that stood behind a mark at the head of a passage, or in front of one
  at its end, is left at the end of the words.  Such a passage is frayed
  (`Frayed`), and no other leaves a blank there: `trim_clean_eq_iff`.
-/
import FolioGrid.Proofs.Text.BlankCharacters

namespace FolioGrid.Text

variable {t u : Text} {cs ds : List Char}

/-! ## §1. Cleaning by characters. -/

theorem mem_marks_iff {c : Char} :
    String.utf8EncodeChar c ∈ marks ↔ c ∈ punctuation.toList := by
  constructor
  · intro h
    obtain ⟨a, ha, hac⟩ := List.mem_map.1 h
    rwa [← utf8EncodeChar_injective hac]
  · exact fun h => List.mem_map_of_mem h

/-- **To clean is to drop the characters that are punctuation.** -/
theorem clean_encode (cs : List Char) :
    clean (encode cs) = encode (cs.filter (· ∉ punctuation.toList)) := by
  have hbook : ∀ m ∈ bookMarks, m ∈ marks := by decide
  unfold clean stripPunctuation stripBookMarks
  rw [dropGlyphs_encode, dropGlyphs_encode, List.filter_filter]
  refine congrArg encode (List.filter_congr fun c _ => ?_)
  by_cases hc : c ∈ punctuation.toList
  · simp [mem_marks_iff, hc]
  · have hnone : String.utf8EncodeChar c ∉ bookMarks := fun h => hc (mem_marks_iff.1 (hbook _ h))
    simp [mem_marks_iff, hc, hnone]

/-- Well-formed texts are cleaned one by one. -/
theorem clean_append (ht : WellFormed t) (hu : WellFormed u) :
    clean (t ++ u) = clean t ++ clean u := by
  obtain ⟨cs, rfl, -⟩ := ht
  obtain ⟨ds, rfl, -⟩ := hu
  rw [← encode_append, clean_encode, clean_encode, clean_encode, List.filter_append, encode_append]

/-! ## §2. Trimmed texts. -/

/-- A beginning of a trimmed text has no blank in front. -/
theorem trim_trimRight_of_prefix (ht : trim t = t) (hu : u <+: t) :
    trim (trimRight u) = trimRight u := by
  obtain ⟨w, hw, hdrop⟩ := exists_blanks_dropBlanks wideSpace (trimRight u)
  obtain ⟨v, hv, hright⟩ := exists_blanks_trimRight u
  have htwice : trimRight (trimRight u) = trimRight u := by
    conv => rhs; rw [← hright]
    exact (trimRight_append_blanks hv _).symm
  -- what would be trimmed off in front would be trimmed off the whole text
  have hnone : w = [] := by
    obtain ⟨y, rfl⟩ := hu
    obtain ⟨x, hx⟩ : ∃ x, u ++ y = w ++ x := by
      rw [← hright, ← hdrop, List.append_assoc, List.append_assoc]
      exact ⟨_, rfl⟩
    rw [hx, trim_blanks_append hw] at ht
    have hle := (trim_isInfix x).length_le
    rw [ht, List.length_append] at hle
    exact List.length_eq_zero_iff.1 (by omega)
  rw [hnone, List.nil_append] at hdrop
  unfold trim
  rw [htwice]
  exact hdrop

theorem Flush.append (hcs : Flush cs) (hds : Flush ds) : Flush (cs ++ ds) where
  head := by
    intro c hc
    cases cs with
    | nil => exact hds.head c hc
    | cons a cs => exact hcs.head c hc
  last := by
    intro c hc
    rw [List.getLast?_append] at hc
    cases hlast : ds.getLast? with
    | some a =>
      rw [hlast] at hc
      exact hds.last c (hlast.trans hc)
    | none =>
      rw [hlast] at hc
      exact hcs.last c hc

/-- Trimmed texts in a row make a trimmed text. -/
theorem trim_flatMap_eq {α : Type} {l : List α} {f : α → Text}
    (h : ∀ a ∈ l, WellFormed (f a) ∧ trim (f a) = f a) : trim (l.flatMap f) = l.flatMap f := by
  have hflush : ∃ cs, encode cs = l.flatMap f ∧ Flush cs := by
    induction l with
    | nil => exact ⟨[], rfl, by simp, by simp⟩
    | cons a l ih =>
      rw [List.forall_mem_cons] at h
      obtain ⟨⟨cs, hcs, -⟩, htrim⟩ := h.1
      obtain ⟨ds, hds, hflush⟩ := ih h.2
      refine ⟨cs ++ ds, ?_, Flush.append ?_ hflush⟩
      · rw [encode_append, hcs, hds, List.flatMap_cons]
      · rw [← trim_encode_eq_iff, hcs, htrim]
  obtain ⟨cs, hcs, hflush⟩ := hflush
  rw [← hcs]
  exact (trim_encode_eq_iff cs).2 hflush

/-! ## §3. Frayed texts. -/

/-- A text with a blank that only punctuation parts from one of its ends. -/
inductive Frayed (t : Text) : Prop where
  /-- Marks, if any, and then a blank stand in front. -/
  | front {ms : List Text} {w r : Text} (hms : ∀ m ∈ ms, m ∈ marks) (hw : Blanks wideSpace w)
      (hne : w ≠ []) (h : t = ms.flatten ++ (w ++ r))
  /-- A blank and then marks, if any, stand behind. -/
  | back {ms : List Text} {w r : Text} (hms : ∀ m ∈ ms, m ∈ marks) (hw : Blanks wideSpace w)
      (hne : w ≠ []) (h : t = r ++ (w ++ ms.flatten))

/-- Marks are the bytes of punctuation. -/
theorem exists_encode_of_marks {ms : List Text} (h : ∀ m ∈ ms, m ∈ marks) :
    ∃ ps : List Char, encode ps = ms.flatten ∧ ∀ c ∈ ps, c ∈ punctuation.toList := by
  induction ms with
  | nil => exact ⟨[], rfl, fun c hc => absurd hc List.not_mem_nil⟩
  | cons m ms ih =>
    rw [List.forall_mem_cons] at h
    obtain ⟨c, hc, rfl⟩ := List.mem_map.1 h.1
    obtain ⟨ps, hps, hall⟩ := ih h.2
    refine ⟨c :: ps, ?_, List.forall_mem_cons.2 ⟨hc, hall⟩⟩
    rw [encode_cons, hps, List.flatten_cons]

theorem exists_marks_of_encode {ps : List Char} (h : ∀ c ∈ ps, c ∈ punctuation.toList) :
    ∃ ms : List Text, ms.flatten = encode ps ∧ ∀ m ∈ ms, m ∈ marks := by
  refine ⟨ps.map String.utf8EncodeChar, List.flatMap_def.symm, ?_⟩
  intro m hm
  obtain ⟨c, hc, rfl⟩ := List.mem_map.1 hm
  exact mem_marks_iff.2 (h c hc)

/-- In characters: punctuation, if any, and then a blank stand at one of the ends. -/
theorem frayed_encode_iff (cs : List Char) :
    Frayed (encode cs)
      ↔ (∃ b ∈ blanks, ∃ ps rest, cs = ps ++ b :: rest ∧ ∀ c ∈ ps, c ∈ punctuation.toList)
        ∨ ∃ b ∈ blanks, ∃ front ps, cs = front ++ b :: ps ∧ ∀ c ∈ ps, c ∈ punctuation.toList := by
  have hcs : WellFormed (encode cs) := ⟨cs, rfl, fun _ _ => trivial⟩
  have hone : ∀ b : Char, String.utf8EncodeChar b ≠ [] :=
    fun b => List.ne_nil_of_length_pos (length_utf8EncodeChar_pos b)
  constructor
  · rintro (⟨hms, hw, hne, heq⟩ | ⟨hms, hw, hne, heq⟩)
    · obtain ⟨ps, hps, hpunctuation⟩ := exists_encode_of_marks hms
      obtain ⟨bs, rfl, hbs⟩ := hw.exists_encode
      rw [← hps] at heq
      rw [heq] at hcs
      obtain ⟨rs, rfl, -⟩ :=
        ((hcs.split_left ⟨ps, rfl, fun _ _ => trivial⟩).2.split_left
          ⟨bs, rfl, fun _ _ => trivial⟩).2
      rw [← encode_append, ← encode_append] at heq
      cases bs with
      | nil => exact absurd rfl hne
      | cons b bs =>
        exact Or.inl ⟨b, hbs b List.mem_cons_self, ps, bs ++ rs, encode_injective heq,
          hpunctuation⟩
    · obtain ⟨ps, hps, hpunctuation⟩ := exists_encode_of_marks hms
      obtain ⟨bs, rfl, hbs⟩ := hw.exists_encode
      rw [← hps, ← encode_append] at heq
      rw [heq] at hcs
      obtain ⟨rs, rfl, -⟩ := (hcs.split_right ⟨bs ++ ps, rfl, fun _ _ => trivial⟩).1
      rw [← encode_append] at heq
      rcases List.eq_nil_or_concat bs with rfl | ⟨front, b, rfl⟩
      · exact absurd rfl hne
      · refine Or.inr ⟨b, hbs b (by simp), rs ++ front, ps, ?_, hpunctuation⟩
        rw [encode_injective heq]
        simp
  · rintro (⟨b, hb, ps, rest, rfl, hps⟩ | ⟨b, hb, front, ps, rfl, hps⟩)
    · obtain ⟨ms, hms, hmarks⟩ := exists_marks_of_encode hps
      refine .front hmarks (blanks_utf8EncodeChar hb) (hone b) (r := encode rest) ?_
      rw [hms, encode_append, encode_cons]
    · obtain ⟨ms, hms, hmarks⟩ := exists_marks_of_encode hps
      refine .back hmarks (blanks_utf8EncodeChar hb) (hone b) (r := encode front) ?_
      rw [hms, encode_append, encode_cons]

/-- The first character that is no punctuation, if it is a blank. -/
theorem exists_blank_head?_filter_iff (cs : List Char) :
    (∃ b ∈ blanks, (cs.filter (· ∉ punctuation.toList)).head? = some b)
      ↔ ∃ b ∈ blanks, ∃ ps rest, cs = ps ++ b :: rest ∧ ∀ c ∈ ps, c ∈ punctuation.toList := by
  have hall : (blanks.all fun c => c ∉ punctuation.toList) = true := by decide +kernel
  have hblank : ∀ c ∈ blanks, c ∉ punctuation.toList :=
    fun c hc => of_decide_eq_true (List.all_eq_true.1 hall c hc)
  simp only [List.head?_filter, List.find?_eq_some_iff_append]
  constructor
  · rintro ⟨b, hb, -, ps, rest, hcs, hps⟩
    exact ⟨b, hb, ps, rest, hcs, fun c hc => by simpa using hps c hc⟩
  · rintro ⟨b, hb, ps, rest, hcs, hps⟩
    exact ⟨b, hb, by simpa using hblank b hb, ps, rest, hcs, fun c hc => by simpa using hps c hc⟩

/-- **Cleaned words are trimmed exactly if the passage was not frayed.** -/
theorem trim_clean_eq_iff (h : WellFormed t) : trim (clean t) = clean t ↔ ¬ Frayed t := by
  obtain ⟨cs, rfl, -⟩ := h
  -- the last character is the first one read backwards
  have hback := exists_blank_head?_filter_iff cs.reverse
  rw [List.filter_reverse, List.head?_reverse] at hback
  have hreverse : ∀ (b : Char) (ps rest : List Char),
      cs.reverse = ps ++ b :: rest ↔ cs = rest.reverse ++ b :: ps.reverse := by
    intro b ps rest
    rw [List.reverse_eq_iff]
    simp
  rw [clean_encode, trim_encode_eq_iff, frayed_encode_iff, ← exists_blank_head?_filter_iff, not_or]
  constructor
  · intro hflush
    refine ⟨?_, ?_⟩
    · rintro ⟨b, hb, hhead⟩
      exact hflush.head b hhead hb
    · rintro ⟨b, hb, front, ps, hcs, hps⟩
      obtain ⟨b', hb', hlast⟩ := hback.2 ⟨b, hb, ps.reverse, front.reverse,
        (hreverse _ _ _).2 (by simpa using hcs), fun c hc => hps c (List.mem_reverse.1 hc)⟩
      exact hflush.last b' hlast hb'
  · rintro ⟨hfront, hbehind⟩
    refine ⟨fun b hhead hb => hfront ⟨b, hb, hhead⟩, fun b hlast hb => ?_⟩
    obtain ⟨b', hb', ps, rest, hcs, hps⟩ := hback.1 ⟨b, hb, hlast⟩
    exact hbehind ⟨b', hb', rest.reverse, ps.reverse, (hreverse _ _ _).1 hcs,
      fun c hc => hps c (List.mem_reverse.1 hc)⟩

end FolioGrid.Text
