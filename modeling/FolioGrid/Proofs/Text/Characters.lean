/-
  FolioGrid.Proofs.Text.Characters
  ────────────────────────────────
  **TEXTS BY THEIR CHARACTERS.**

  A text is well formed if it is the bytes of some characters, and `MadeOf P`
  says of which kind they are.  The library cuts texts at bytes, so what has to
  be known is where a cut falls between two characters:

      MadeOf.split       — in front of anything but an inner byte
      MadeOf.split_left  — behind a well-formed text
      MadeOf.split_right — in front of a well-formed text

  Every search, trim and scan of the library cuts at such a place, so the parts
  are made of the characters of the whole.
-/
import FolioGrid.Proofs.Text.Blank
import FolioGrid.Proofs.Text.Encoding
import FolioGrid.Proofs.Text.Lines
import Mathlib.Data.List.TakeWhile

namespace FolioGrid.Text

/-! ## §1. Texts made of characters. -/

/-- A text that is made of characters of a kind: it is their bytes. -/
def MadeOf (P : Char → Prop) (t : Text) : Prop :=
  ∃ cs : List Char, encode cs = t ∧ ∀ c ∈ cs, P c

/-- A well-formed text: it is made of characters, whatever they are. -/
abbrev WellFormed (t : Text) : Prop := MadeOf (fun _ => True) t

variable {P Q : Char → Prop} {t u x y : Text} {b : UInt8}

/-- Characters one behind the other have their bytes one behind the other. -/
theorem encode_append (cs ds : List Char) : encode (cs ++ ds) = encode cs ++ encode ds :=
  List.flatMap_append

theorem encode_cons (c : Char) (cs : List Char) :
    encode (c :: cs) = String.utf8EncodeChar c ++ encode cs :=
  List.flatMap_cons

/-- Well-formed is what the library of the language takes for UTF-8. -/
theorem wellFormed_iff_isValidUTF8 : WellFormed t ↔ t.toByteArray.IsValidUTF8 := by
  constructor
  · rintro ⟨cs, rfl, -⟩
    exact ⟨cs, rfl⟩
  · rintro ⟨cs, hcs⟩
    exact ⟨cs, (List.toByteArray_inj.1 hcs).symm, fun _ _ => trivial⟩

/-- The empty text is made of characters of any kind. -/
theorem MadeOf.nil : MadeOf P [] := ⟨[], rfl, by simp⟩

/-- Texts of one kind of characters make a text of that kind. -/
theorem MadeOf.append (ht : MadeOf P t) (hu : MadeOf P u) : MadeOf P (t ++ u) := by
  obtain ⟨cs, rfl, hcs⟩ := ht
  obtain ⟨ds, rfl, hds⟩ := hu
  refine ⟨cs ++ ds, encode_append cs ds, ?_⟩
  intro c hc
  rcases List.mem_append.1 hc with hc | hc
  · exact hcs c hc
  · exact hds c hc

/-- A text of some kind of characters is one of any wider kind. -/
theorem MadeOf.mono (h : ∀ c, P c → Q c) (ht : MadeOf P t) : MadeOf Q t := by
  obtain ⟨cs, rfl, hcs⟩ := ht
  exact ⟨cs, rfl, fun c hc => h c (hcs c hc)⟩

theorem MadeOf.wellFormed (h : MadeOf P t) : WellFormed t := h.mono fun _ _ => trivial

/-- Any number of such texts make one. -/
theorem MadeOf.flatten {ts : List Text} (h : ∀ t ∈ ts, MadeOf P t) : MadeOf P ts.flatten := by
  induction ts with
  | nil => exact .nil
  | cons t ts ih =>
    rw [List.flatten_cons]
    exact (h t List.mem_cons_self).append (ih fun u hu => h u (List.mem_cons_of_mem t hu))

/-- So do texts that are made from the elements of a list. -/
theorem MadeOf.flatMap {α : Type} {l : List α} {f : α → Text} (h : ∀ a ∈ l, MadeOf P (f a)) :
    MadeOf P (l.flatMap f) := by
  refine MadeOf.flatten ?_
  intro t ht
  obtain ⟨a, ha, rfl⟩ := List.mem_map.1 ht
  exact h a ha

/-- One character. -/
theorem madeOf_utf8EncodeChar {c : Char} (h : P c) : MadeOf P (String.utf8EncodeChar c) := by
  refine ⟨[c], List.append_nil _, ?_⟩
  intro a ha
  rwa [List.mem_singleton.1 ha]

/-- What is written as a string is well formed. -/
theorem wellFormed_utf8 (s : String) : WellFormed (utf8 s) := ⟨s.toList, rfl, fun _ _ => trivial⟩

/-- An ASCII byte is a character. -/
theorem utf8EncodeChar_ofUInt8 (h : b < 0x80) :
    String.utf8EncodeChar (Char.ofUInt8 b) = [b] := by
  have hb : b.toNat ≤ 127 := by
    have hlt := UInt8.lt_iff_toNat_lt.1 h
    have h80 : (0x80 : UInt8).toNat = 128 := rfl
    omega
  have hval : (Char.ofUInt8 b).val.toNat = b.toNat := rfl
  unfold String.utf8EncodeChar
  simp only [hval, if_pos hb, UInt8.ofNat_toNat]

/-- ASCII bytes are characters, so a text of them is well formed. -/
theorem wellFormed_of_ascii (h : ∀ b ∈ t, b < 0x80) : WellFormed t := by
  induction t with
  | nil => exact .nil
  | cons b t ih =>
    have hb : WellFormed [b] := by
      rw [← utf8EncodeChar_ofUInt8 (h b List.mem_cons_self)]
      exact madeOf_utf8EncodeChar trivial
    exact hb.append (ih fun c hc => h c (List.mem_cons_of_mem b hc))

theorem wellFormed_singleton (h : b < 0x80) : WellFormed [b] :=
  wellFormed_of_ascii fun c hc => by rwa [List.mem_singleton.1 hc]

/-! ## §2. Where a text may be cut. -/

/-- A text that does not start inside a character. -/
def Opens (t : Text) : Prop := ∀ b rest, t = b :: rest → isContinuation b = false

theorem opens_nil : Opens [] := fun _ _ h => absurd h (List.cons_ne_nil _ _).symm

/-- A text opens if its first byte is not an inner byte of a character. -/
theorem opens_cons (h : isContinuation b = false) (t : Text) : Opens (b :: t) := by
  intro c rest heq
  rwa [← (List.cons.inj heq).1]

/-- Text that is made of characters opens. -/
theorem MadeOf.opens (h : MadeOf P t) : Opens t := by
  obtain ⟨cs, rfl, -⟩ := h
  cases cs with
  | nil => exact opens_nil
  | cons c cs =>
    obtain ⟨lead, rest, hc, hlead, -⟩ := exists_lead c
    rw [encode_cons, hc]
    exact opens_cons hlead _

/-- What stands behind a text that opens does not matter, unless it is empty. -/
theorem Opens.append_of_ne_nil (ht : Opens t) (hne : t ≠ []) (u : Text) : Opens (t ++ u) := by
  obtain ⟨b, rest, rfl⟩ := List.exists_cons_of_ne_nil hne
  exact opens_cons (ht b rest rfl) _

/-- **A cut in front of anything but an inner byte is between characters.** -/
theorem MadeOf.split (h : MadeOf P (x ++ y)) (hy : Opens y) : MadeOf P x ∧ MadeOf P y := by
  obtain ⟨cs, hcs, hP⟩ := h
  -- induction on the characters: does the cut lie in the first one, or behind it?
  induction cs generalizing x with
  | nil =>
    obtain ⟨rfl, rfl⟩ := List.append_eq_nil_iff.1 hcs.symm
    exact ⟨.nil, .nil⟩
  | cons c cs ih =>
    rw [encode_cons] at hcs
    have hfirst : MadeOf P (String.utf8EncodeChar c) :=
      madeOf_utf8EncodeChar (hP c List.mem_cons_self)
    rcases List.append_eq_append_iff.1 hcs with ⟨z, hx, hz⟩ | ⟨z, hc, hz⟩
    · obtain ⟨hz', hy'⟩ := ih hz (fun a ha => hP a (List.mem_cons_of_mem c ha))
      rw [hx]
      exact ⟨hfirst.append hz', hy'⟩
    · obtain ⟨lead, rest, hlead, -, hrest⟩ := exists_lead c
      cases x with
      | nil =>
        rw [List.nil_append] at hc
        rw [hz, ← hc, ← encode_cons]
        exact ⟨.nil, c :: cs, rfl, hP⟩
      | cons a x =>
        cases z with
        | nil =>
          rw [List.append_nil] at hc
          rw [hz, ← hc]
          exact ⟨hfirst, cs, rfl, fun a ha => hP a (List.mem_cons_of_mem c ha)⟩
        | cons b z =>
          -- the second part would start inside the first character
          rw [hlead, List.cons_append] at hc
          have hb : b ∈ rest := by
            rw [(List.cons.inj hc).2]
            simp
          have hin := hy b _ hz
          rw [hrest b hb] at hin
          cases hin

/-- A cut behind a well-formed text is between characters. -/
theorem MadeOf.split_left (h : MadeOf P (x ++ y)) (hx : WellFormed x) :
    MadeOf P x ∧ MadeOf P y := by
  obtain ⟨cs, rfl, -⟩ := hx
  obtain ⟨ds, hds, hP⟩ := h
  -- both spell the same characters one by one, since a character says where it ends
  induction cs generalizing ds with
  | nil => exact ⟨.nil, ds, hds, hP⟩
  | cons c cs ih =>
    rw [encode_cons, List.append_assoc] at hds
    cases ds with
    | nil =>
      obtain ⟨lead, rest, hlead, -⟩ := exists_lead c
      rw [hlead] at hds
      cases hds
    | cons d ds =>
      rw [encode_cons] at hds
      have hd := eq_of_utf8EncodeChar_append hds
      rw [hd] at hds
      obtain ⟨hcs, hy⟩ := ih ds (List.append_cancel_left hds)
        (fun a ha => hP a (List.mem_cons_of_mem d ha))
      refine ⟨?_, hy⟩
      rw [encode_cons, ← hd]
      exact (madeOf_utf8EncodeChar (hP d List.mem_cons_self)).append hcs

/-- A cut in front of a well-formed text is between characters. -/
theorem MadeOf.split_right (h : MadeOf P (x ++ y)) (hy : WellFormed y) :
    MadeOf P x ∧ MadeOf P y :=
  h.split hy.opens

/-- An ASCII byte is a character by itself, and so can be taken from the head. -/
theorem MadeOf.of_cons (h : MadeOf P (b :: t)) (hb : b < 0x80) : MadeOf P t :=
  (MadeOf.split_left (x := [b]) h (wellFormed_singleton hb)).2

theorem isContinuation_of_ascii (h : b < 0x80) : isContinuation b = false := by
  unfold isContinuation
  simp only [Bool.and_eq_false_iff, decide_eq_false_iff_not]
  exact Or.inl (UInt8.not_le.2 h)

/-- An ASCII byte separates characters. -/
theorem MadeOf.around (h : MadeOf P (x ++ b :: y)) (hb : b < 0x80) : MadeOf P x ∧ MadeOf P y := by
  obtain ⟨hx, hy⟩ := h.split (opens_cons (isContinuation_of_ascii hb) y)
  exact ⟨hx, hy.of_cons hb⟩

/-! ## §3. Searching. -/

/-- The parts around a pattern that is found. -/
theorem MadeOf.of_cutAny? {ps : List Text} {c : Cut} (ht : MadeOf P t) (h : cutAny? ps t = some c)
    (hps : ∀ p ∈ ps, WellFormed p ∧ p ≠ []) :
    MadeOf P c.before ∧ MadeOf P c.found ∧ MadeOf P c.after := by
  obtain ⟨hfound, hne⟩ := hps c.found (found_mem_of_cutAny? h)
  rw [← append_of_cutAny? h, List.append_assoc] at ht
  obtain ⟨hbefore, hrest⟩ := ht.split (hfound.opens.append_of_ne_nil hne c.after)
  exact ⟨hbefore, hrest.split_left hfound⟩

/-- **A cut at a well-formed pattern** falls between characters, on both sides. -/
theorem MadeOf.of_cut? {p : Text} {c : Cut} (ht : MadeOf P t) (h : cut? p t = some c)
    (hp : WellFormed p) (hne : p ≠ []) : MadeOf P c.before ∧ MadeOf P c.after := by
  obtain ⟨hbefore, -, hafter⟩ :=
    ht.of_cutAny? h (fun q hq => by rw [List.mem_singleton.1 hq]; exact ⟨hp, hne⟩)
  exact ⟨hbefore, hafter⟩

/-- So does one behind a well-formed head. -/
theorem MadeOf.of_after? {p : Text} (ht : MadeOf P t) (h : after? p t = some u)
    (hp : WellFormed p) : MadeOf P u := by
  rw [after?_eq_some_iff.1 h] at ht
  exact (ht.split_left hp).2

/-- The bytes in front of the first one that is not of a kind, and the others. -/
theorem MadeOf.span_of_ascii {p : UInt8 → Bool} (hp : ∀ b, p b = true → b < 0x80)
    (ht : MadeOf P t) : MadeOf P (t.takeWhile p) ∧ MadeOf P (t.dropWhile p) := by
  rw [← List.takeWhile_append_dropWhile (p := p) (l := t)] at ht
  exact ht.split_left (wellFormed_of_ascii fun b hb => hp b (List.mem_takeWhile_imp hb))

/-- What stands in front of the first place of an ASCII byte, and the rest. -/
theorem MadeOf.span_ne (hb : b < 0x80) (ht : MadeOf P t) :
    MadeOf P (t.takeWhile (· ≠ b)) ∧ MadeOf P (t.dropWhile (· ≠ b)) := by
  rw [← List.takeWhile_append_dropWhile (p := (· ≠ b)) (l := t)] at ht
  refine ht.split ?_
  intro a rest ha
  have hhead := List.head?_dropWhile_not (· ≠ b) t
  rw [ha] at hhead
  have hab : a = b := by simpa using hhead
  rw [hab]
  exact isContinuation_of_ascii hb

/-! ## §4. Lines. -/

/-- A line feed is a character by itself, so the lines are made of the characters of their
text. -/
theorem madeOf_of_joinLines {ls : List Text} (h : MadeOf P (joinLines ls)) :
    ∀ l ∈ ls, MadeOf P l := by
  induction ls with
  | nil => simp
  | cons l ls ih =>
    by_cases hls : ls = []
    · intro k hk
      rw [hls, List.mem_singleton] at hk
      rw [hls] at h
      simpa [hk, joinLines] using h
    · rw [joinLines_cons l hls] at h
      obtain ⟨hl, hrest⟩ := h.around (by decide)
      intro k hk
      rcases List.mem_cons.1 hk with rfl | hk
      · exact hl
      · exact ih hrest k hk

/-- The lines of a text are made of its characters. -/
theorem MadeOf.of_mem_lines (h : MadeOf P t) : ∀ l ∈ lines t, MadeOf P l := by
  rw [← joinLines_lines t] at h
  exact madeOf_of_joinLines h

/-- And well-formed lines make a well-formed text. -/
theorem wellFormed_joinLines {ls : List Text} (h : ∀ l ∈ ls, WellFormed l) :
    WellFormed (joinLines ls) := by
  induction ls with
  | nil => exact .nil
  | cons l ls ih =>
    by_cases hls : ls = []
    · simpa [hls, joinLines] using h l List.mem_cons_self
    · have hrest := ih fun k hk => h k (List.mem_cons_of_mem l hk)
      rw [joinLines_cons l hls]
      exact (h l List.mem_cons_self).append ((wellFormed_singleton (by decide)).append hrest)

theorem beforeLast?_eq_some {before : Text} (h : beforeLast? b t = some before) :
    ∃ after, t = before ++ b :: after := by
  unfold beforeLast? at h
  split at h
  · cases h
  · next c rest hrest =>
    cases h
    have ht := List.takeWhile_append_dropWhile (p := (· != b)) (l := t.reverse)
    have hhead := List.head?_dropWhile_not (· != b) t.reverse
    generalize t.reverse.takeWhile (· != b) = passed at ht
    rw [hrest] at ht hhead
    -- the byte at which the search from behind stops is the one that was looked for
    have hc : c = b := by simpa using hhead
    refine ⟨passed.reverse, ?_⟩
    rw [← List.reverse_reverse t, ← ht, hc]
    simp

/-- In front of the last ASCII byte of a kind, the text is made of the same characters. -/
theorem MadeOf.of_beforeLast? (ht : MadeOf P t) (h : beforeLast? b t = some u)
    (hb : b < 0x80) : MadeOf P u := by
  obtain ⟨after, rfl⟩ := beforeLast?_eq_some h
  exact (ht.around hb).1

/-! ## §5. Blanks. -/

/-- A space is ASCII. -/
theorem ascii_of_isSpace (h : isSpace b = true) : b < 0x80 := by
  unfold isSpace at h
  simp only [Bool.or_eq_true, beq_iff_eq, Bool.and_eq_true, decide_eq_true_eq,
    UInt8.le_iff_toNat_le, ← UInt8.toNat_inj, UInt8.lt_iff_toNat_lt, UInt8.reduceToNat] at h ⊢
  omega

theorem wellFormed_wideSpace : WellFormed wideSpace := ⟨['\u3000'], by decide, fun _ _ => trivial⟩

/-- Blanks are spaces, which are ASCII, and wide ones, which are a character each. -/
theorem Blanks.wellFormed (h : Blanks wideSpace u) : WellFormed u := by
  induction h with
  | nil => exact .nil
  | space hb _ ih => exact (wellFormed_singleton (ascii_of_isSpace hb)).append ih
  | wide _ ih => exact wellFormed_wideSpace.append ih

/-- **Trimming takes whole characters**, at the end -/
theorem MadeOf.trimRight (h : MadeOf P t) : MadeOf P (trimRight t) := by
  obtain ⟨v, hv, ht⟩ := exists_blanks_trimRight t
  rw [← ht] at h
  exact (h.split_right hv.wellFormed).1

/-- and at both ends. -/
theorem MadeOf.trim (h : MadeOf P t) : MadeOf P (trim t) := by
  obtain ⟨u, v, hu, hv, ht⟩ := exists_blanks_trim t
  rw [← ht] at h
  exact ((h.split_right hv.wellFormed).1.split_left hu.wellFormed).2

/-- Blanks are removed between characters, also behind the first bytes of one. -/
theorem MadeOf.append_removeBlanks (h : MadeOf P (x ++ t)) : MadeOf P (x ++ removeBlanks t) := by
  -- the bytes that are kept go to the part in front, where they wait for their character
  fun_induction removeBlanks t generalizing x with
  | case1 => exact h
  | case2 a rest hspace ih =>
    obtain ⟨hx, hrest⟩ := h.around (ascii_of_isSpace hspace)
    exact hx.append (ih (x := []) hrest)
  | case3 a hspace b c after hwide ih =>
    rw [show x ++ a :: b :: c :: after = x ++ ([a, b, c] ++ after) from rfl, ← hwide] at h
    obtain ⟨hx, hrest⟩ := h.split (wellFormed_wideSpace.opens.append_of_ne_nil (by decide) after)
    exact hx.append (ih (x := []) (hrest.split_left wellFormed_wideSpace).2)
  | case4 a hspace b c after hwide ih =>
    rw [List.append_cons] at h ⊢
    exact ih h
  | case5 a rest hspace hshort ih =>
    rw [List.append_cons] at h ⊢
    exact ih h

/-- Nor is a character cut where blanks are left out. -/
theorem MadeOf.removeBlanks (h : MadeOf P t) : MadeOf P (removeBlanks t) :=
  MadeOf.append_removeBlanks (x := []) h

/-- The same where one ASCII byte is removed. -/
theorem MadeOf.append_filter_ne (hb : b < 0x80) (h : MadeOf P (x ++ t)) :
    MadeOf P (x ++ t.filter (· ≠ b)) := by
  induction t generalizing x with
  | nil => exact h
  | cons a t ih =>
    by_cases ha : a = b
    · rw [ha] at h ⊢
      rw [List.filter_cons_of_neg (by simp)]
      obtain ⟨hx, ht⟩ := h.around hb
      exact hx.append (ih (x := []) ht)
    · rw [List.filter_cons_of_pos (by simpa using ha), List.append_cons]
      rw [List.append_cons] at h
      exact ih h

end FolioGrid.Text
