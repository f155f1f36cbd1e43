/-
  FolioGrid.Text.Basic
  ────────────────────────────────
  **BYTE STRINGS.**

  A book arrives as bytes, and nothing promises that they are well formed, so
  a `Text` is a list of bytes and every operation below is total on all of
  them.  A literal is written as a string and encoded once (`utf8`).

  What the rest of the library needs of a text is small:

      after?      — what follows a given head
      cutAny?     — the first occurrence of one of several patterns
      pieces      — the text between separators (`lines`: between line feeds)
      beforeLast? — what stands before the last occurrence of a byte

  The lemmas of this module are the equations by which later ones compute.
-/

namespace FolioGrid

/-- A byte string. -/
abbrev Text := List UInt8

namespace Text

/-! ## §1. Literals. -/

/-- The UTF-8 bytes of a list of characters. -/
def encode (cs : List Char) : Text := cs.flatMap String.utf8EncodeChar

/-- The UTF-8 bytes of a string. -/
def utf8 (s : String) : Text := encode s.toList

/-- The byte of an ASCII character. -/
def ascii (c : Char) : UInt8 := c.toUInt8

/-- The line feed, which separates lines. -/
def lineFeed : UInt8 := ascii '\n'

/-- The backslash, which opens a command. -/
def backslash : UInt8 := ascii '\\'

/-- The percent sign, which opens a comment. -/
def percent : UInt8 := ascii '%'

/-- The brace that opens a group. -/
def openBrace : UInt8 := ascii '\x7b'

/-- The brace that closes a group. -/
def closeBrace : UInt8 := ascii '\x7d'

/-- The bracket that opens an optional argument. -/
def openBracket : UInt8 := ascii '['

/-- The bracket that closes an optional argument. -/
def closeBracket : UInt8 := ascii ']'

/-! ## §2. Finding a pattern. -/

/-- What follows `head` in a text that starts with it. -/
def after? (head t : Text) : Option Text :=
  if head.isPrefixOf t then some (t.drop head.length) else none

/-- What follows a head is shorter than the text by the head. -/
theorem length_of_after? {head t rest : Text} (h : after? head t = some rest) :
    head.length + rest.length = t.length := by
  unfold after? at h
  split at h
  · next hp =>
    cases h
    have := (List.isPrefixOf_iff_prefix.1 hp).length_le
    simp only [List.length_drop]
    omega
  · cases h

/-- A text taken apart around an occurrence of a pattern. -/
structure Cut where
  /-- What stands before the pattern. -/
  before : Text
  /-- The pattern that occurs. -/
  found : Text
  /-- What stands behind the pattern. -/
  after : Text
  deriving DecidableEq, Repr

/-- A cut of the text that has `b` in front. -/
def Cut.push (b : UInt8) (c : Cut) : Cut := { c with before := b :: c.before }

/-- Take a text apart at the earliest place where one of the patterns stands.
Where several stand at one place, the one that is listed first is taken. -/
def cutAny? (patterns : List Text) (t : Text) : Option Cut :=
  go [] t
where
  /-- The search, with the bytes already passed in reverse. -/
  go (passed : Text) (t : Text) : Option Cut :=
    match patterns.find? (·.isPrefixOf t) with
    | some p => some ⟨passed.reverse, p, t.drop p.length⟩
    | none =>
      match t with
      | [] => none
      | b :: rest => go (b :: passed) rest

/-- Take a text apart at the first occurrence of a pattern. -/
def cut? (pattern t : Text) : Option Cut := cutAny? [pattern] t

/-- Bytes already passed only lengthen the part before the pattern. -/
theorem cutAny?_go_eq (patterns : List Text) (t passed : Text) :
    cutAny?.go patterns passed t
      = (cutAny? patterns t).map fun c => { c with before := passed.reverse ++ c.before } := by
  induction t generalizing passed with
  | nil =>
    unfold cutAny? cutAny?.go
    cases patterns.find? (·.isPrefixOf []) <;> simp
  | cons b rest ih =>
    unfold cutAny? cutAny?.go
    cases patterns.find? (·.isPrefixOf (b :: rest)) with
    | some p => simp
    | none => simp [ih (b :: passed), ih [b], Function.comp_def]

/-- A pattern at the head is found at once. -/
theorem cutAny?_of_find? {patterns : List Text} {t p : Text}
    (h : patterns.find? (·.isPrefixOf t) = some p) :
    cutAny? patterns t = some ⟨[], p, t.drop p.length⟩ := by
  unfold cutAny? cutAny?.go
  simp [h]

/-- The search steps over a byte at which no pattern stands. -/
theorem cutAny?_cons {patterns : List Text} {b : UInt8} {rest : Text}
    (h : patterns.find? (·.isPrefixOf (b :: rest)) = none) :
    cutAny? patterns (b :: rest) = (cutAny? patterns rest).map (Cut.push b) := by
  conv => lhs; unfold cutAny? cutAny?.go
  simp only [h, cutAny?_go_eq]
  rfl

/-- The found pattern is one of those looked for. -/
theorem found_mem_of_cutAny? {patterns : List Text} {t : Text} {c : Cut}
    (h : cutAny? patterns t = some c) : c.found ∈ patterns := by
  induction t generalizing c with
  | nil =>
    cases hf : patterns.find? (·.isPrefixOf []) with
    | none => simp [cutAny?, cutAny?.go, hf] at h
    | some p =>
      rw [cutAny?_of_find? hf] at h
      cases h
      exact List.mem_of_find?_eq_some hf
  | cons b rest ih =>
    cases hf : patterns.find? (·.isPrefixOf (b :: rest)) with
    | none =>
      rw [cutAny?_cons hf] at h
      obtain ⟨c', hc', rfl⟩ := Option.map_eq_some_iff.1 h
      exact (ih hc' : c'.found ∈ patterns)
    | some p =>
      rw [cutAny?_of_find? hf] at h
      cases h
      exact List.mem_of_find?_eq_some hf

/-- The three parts of a cut give the text back. -/
theorem append_of_cutAny? {patterns : List Text} {t : Text} {c : Cut}
    (h : cutAny? patterns t = some c) : c.before ++ c.found ++ c.after = t := by
  have head : ∀ {u p : Text}, patterns.find? (·.isPrefixOf u) = some p →
      p ++ u.drop p.length = u := by
    intro u p hf
    have hp : p.isPrefixOf u = true := by simpa using List.find?_some hf
    exact (List.prefix_iff_eq_append.1 (List.isPrefixOf_iff_prefix.1 hp))
  induction t generalizing c with
  | nil =>
    cases hf : patterns.find? (·.isPrefixOf []) with
    | none => simp [cutAny?, cutAny?.go, hf] at h
    | some p =>
      rw [cutAny?_of_find? hf] at h
      cases h
      simpa using head hf
  | cons b rest ih =>
    cases hf : patterns.find? (·.isPrefixOf (b :: rest)) with
    | none =>
      rw [cutAny?_cons hf] at h
      obtain ⟨c', hc', rfl⟩ := Option.map_eq_some_iff.1 h
      simpa [Cut.push] using ih hc'
    | some p =>
      rw [cutAny?_of_find? hf] at h
      cases h
      simpa using head hf

/-- The found pattern of a single search is the pattern. -/
theorem found_of_cut? {pattern t : Text} {c : Cut} (h : cut? pattern t = some c) :
    c.found = pattern :=
  List.mem_singleton.1 (found_mem_of_cutAny? h)

/-- What stands around a pattern is shorter than the text by the pattern. -/
theorem length_of_cut? {pattern t : Text} {c : Cut} (h : cut? pattern t = some c) :
    c.before.length + pattern.length + c.after.length = t.length := by
  rw [← append_of_cutAny? h, found_of_cut? h]
  simp only [List.length_append]

/-! ## §3. Separators. -/

/-- The texts between the occurrences of a separator: one more than there are
separators. -/
def pieces (separator : UInt8) (t : Text) : List Text :=
  t.foldr step [[]]
where
  /-- One more byte in front. -/
  step (b : UInt8) : List Text → List Text
    | [] => [[b]]
    | piece :: rest =>
      if b = separator then [] :: piece :: rest else (b :: piece) :: rest

/-- The lines of a text. -/
def lines (t : Text) : List Text := pieces lineFeed t

/-- Lines written one below the other. -/
def joinLines (ls : List Text) : Text := [lineFeed].intercalate ls

/-- What stands before the last occurrence of a byte. -/
def beforeLast? (b : UInt8) (t : Text) : Option Text :=
  match t.reverse.dropWhile (· != b) with
  | [] => none
  | _ :: before => some before.reverse

end Text

end FolioGrid
