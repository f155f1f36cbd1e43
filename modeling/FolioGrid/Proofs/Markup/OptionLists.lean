/-
  FolioGrid.Proofs.Markup.OptionLists
  ────────────────────────────────
  **OPTION LISTS OF ANY LENGTH.**

  An option list can be written in many ways: with blanks around its keys, values and
  items, and with items that are blank altogether.  What can be written is said by types
  whose elements carry the conditions:

      White      — blanks and nothing else
      OptionPair — a key and a value that no blank, comma or equals sign takes apart
      OptionItem — what may stand between two commas

  All that a list is read for is its pairs, and of these the last one of each key.

  Main result: `optionTable_items`.
-/
import FolioGrid.Proofs.Markup.Options
import FolioGrid.Proofs.Text.Blank
import FolioGrid.Proofs.Text.Table

namespace FolioGrid.Markup

open FolioGrid.Text

/-! ## §1. Items. -/

/-- White: blanks and nothing else. -/
structure White where
  /-- The bytes. -/
  text : Text
  /-- They are blanks. -/
  blanks : Blanks wideSpace text

/-- A key and its value, as they can be written in an option. -/
structure OptionPair where
  /-- The key. -/
  key : Text
  /-- The value. -/
  value : Text
  /-- The key has no blank at its ends. -/
  trim_key : trim key = key
  /-- Nor has the value. -/
  trim_value : trim value = value
  /-- Neither ends the option, -/
  comma_not_mem : comma ∉ key ∧ comma ∉ value
  /-- and the key does not end itself. -/
  equalsSign_not_mem : equalsSign ∉ key

/-- What may stand between two commas. -/
inductive OptionItem where
  /-- Nothing but white. -/
  | blank (white : White)
  /-- A pair, with white in front of the key and behind it, and in front of the value and
  behind it. -/
  | pair (p : OptionPair) (front behindKey beforeValue back : White)

/-- An item as it is written. -/
def OptionItem.text : OptionItem → Text
  | .blank white => white.text
  | .pair p front behindKey beforeValue back =>
    front.text ++ p.key ++ behindKey.text
      ++ equalsSign :: (beforeValue.text ++ p.value ++ back.text)

/-- The key and the value of an item, if it is not blank. -/
def OptionItem.entry? : OptionItem → Option (Text × Text)
  | .blank _ => none
  | .pair p _ _ _ _ => some (p.key, p.value)

/-- An option list with the given items. -/
def optionList (items : List OptionItem) : Text := [comma].intercalate (items.map OptionItem.text)

/-- White holds no byte that no blank holds. -/
theorem White.not_mem (white : White) {b : UInt8} (hspace : isSpace b = false)
    (hwide : b ∉ wideSpace) : b ∉ white.text := by
  intro hb
  rcases white.blanks.mem hb with hb | hb
  · rw [hspace] at hb
    cases hb
  · exact hwide hb

/-- No item has a comma in it, so commas stand between items only. -/
theorem OptionItem.comma_not_mem (item : OptionItem) : comma ∉ item.text := by
  have hwhite : ∀ white : White, comma ∉ white.text :=
    fun white => white.not_mem (by decide) (by decide)
  cases item with
  | blank white => exact hwhite white
  | pair p front behindKey beforeValue back =>
    have hsign : comma ≠ equalsSign := by decide
    simp [OptionItem.text, hwhite, hsign, p.comma_not_mem.1, p.comma_not_mem.2]

/-! ## §2. Reading an item. -/

/-- A blank item is trimmed away. -/
theorem White.trim_eq (white : White) : trim white.text = [] := by
  have hnone := trim_blanks_append white.blanks []
  rw [List.append_nil] at hnone
  exact hnone

/-- White around a text makes no difference once it is trimmed. -/
theorem trim_between (front back : White) (t : Text) :
    trim (front.text ++ t ++ back.text) = trim t := by
  rw [trim_append_blanks back.blanks, trim_blanks_append front.blanks]

/-- An item is trimmed on either side of its equals sign by itself. -/
theorem trim_append_equalsSign (t u : Text) :
    trim (t ++ equalsSign :: u) = trimLeft t ++ equalsSign :: trimRight u := by
  unfold trim
  rw [trimRight_append_cons (by decide) (by decide)]
  exact dropBlanks_append_cons (by decide) (by decide) t (trimRight u)

/-- What is trimmed on the left is trimmed no less afterwards. -/
theorem trim_trimLeft (t : Text) : trim (trimLeft t) = trim t := by
  obtain ⟨u, hu, ht⟩ := exists_blanks_dropBlanks wideSpace t
  conv => rhs; rw [← ht]
  exact (trim_blanks_append hu (trimLeft t)).symm

/-- **An item with a pair is read as the pair**, whatever white is written with it. -/
theorem OptionItem.optionEntry_trim_pair (p : OptionPair)
    (front behindKey beforeValue back : White) :
    optionEntry (trim (OptionItem.pair p front behindKey beforeValue back).text)
      = (p.key, p.value) := by
  have hkey : equalsSign ∉ trimLeft (front.text ++ p.key ++ behindKey.text) := by
    obtain ⟨u, -, ht⟩ := exists_blanks_dropBlanks wideSpace (front.text ++ p.key ++ behindKey.text)
    intro hmem
    -- what is left of the key's side is part of it, and there the sign stands nowhere
    have hside : equalsSign ∈ front.text ++ p.key ++ behindKey.text := by
      rw [← ht]
      exact List.mem_append_right u hmem
    have hwhite : ∀ white : White, equalsSign ∉ white.text :=
      fun white => white.not_mem (by decide) (by decide)
    simp [hwhite, p.equalsSign_not_mem] at hside
  show optionEntry (trim (front.text ++ p.key ++ behindKey.text
    ++ equalsSign :: (beforeValue.text ++ p.value ++ back.text))) = _
  rw [trim_append_equalsSign, optionEntry_append hkey, trim_trimLeft, trim_trimRight, trim_between,
    trim_between, p.trim_key, p.trim_value]

/-- An item with a pair is not blank: its sign is left. -/
theorem OptionItem.trim_pair_ne_nil (p : OptionPair) (front behindKey beforeValue back : White) :
    trim (OptionItem.pair p front behindKey beforeValue back).text ≠ [] := by
  refine trim_ne_nil_of_mem (b := equalsSign) ?_ (by decide) (by decide)
  simp [OptionItem.text]

/-! ## §3. Reading a list. -/

/-- Between its commas a list has its items, and an empty one nothing but white. -/
theorem pieces_optionList (items : List OptionItem) :
    pieces comma (optionList items) = if items = [] then [[]] else items.map OptionItem.text := by
  unfold optionList
  rw [pieces_eq_splitOn]
  split
  · next hnil =>
    rw [hnil]
    rfl
  · next hne =>
    refine List.splitOn_intercalate comma ?_ (by simpa using hne)
    intro t ht
    obtain ⟨item, -, rfl⟩ := List.mem_map.1 ht
    exact item.comma_not_mem

/-- The items that are not blank are read as their pairs. -/
theorem map_optionEntry_items (items : List OptionItem) :
    (((items.map OptionItem.text).map trim).filter (· ≠ [])).map optionEntry
      = items.filterMap OptionItem.entry? := by
  induction items with
  | nil => rfl
  | cons item items ih =>
    rw [List.map_cons, List.map_cons]
    cases item with
    | blank white =>
      have hblank : trim (OptionItem.blank white).text = [] := white.trim_eq
      rw [List.filter_cons_of_neg (by simp [hblank]), ih]
      rfl
    | pair p front behindKey beforeValue back =>
      have hne := OptionItem.trim_pair_ne_nil p front behindKey beforeValue back
      rw [List.filter_cons_of_pos (by simpa using hne), List.map_cons, ih,
        OptionItem.optionEntry_trim_pair]
      rfl

/-- A list is read as the table of its pairs, in the order in which they stand. -/
theorem optionTable_optionList (items : List OptionItem) :
    optionTable (optionList items) = Table.ofList (items.filterMap OptionItem.entry?) := by
  rw [← map_optionEntry_items]
  unfold optionTable
  rw [show pieces (ascii ',') (optionList items) = _ from pieces_optionList items]
  split
  · next hnil =>
    rw [hnil]
    rfl
  · rfl

/-- **An option list decodes to the map that it encodes.**  However the white is written
and however many items are blank, the table has each key once, in order, and with it the
value of the last pair of that key; and it has nothing else. -/
theorem optionTable_items (items : List OptionItem) :
    (optionTable (optionList items)).Sorted
      ∧ ∀ key value, (key, value) ∈ (optionTable (optionList items)).entries
        ↔ Table.lastValue? (items.filterMap OptionItem.entry?) key = some value := by
  rw [optionTable_optionList]
  exact ⟨Table.sorted_ofList _, Table.mem_ofList_iff _⟩

/-- No white. -/
def White.none : White := ⟨[], .nil⟩

/-- A space. -/
def White.space : White := ⟨[ascii ' '], .space (by decide) .nil⟩

/-- An ideographic space behind a space. -/
def White.wide : White := ⟨ascii ' ' :: (wideSpace ++ []), .space (by decide) (.wide .nil)⟩

/-- An indent of two characters. -/
def indentTwo : OptionPair :=
  ⟨utf8 "indent", utf8 "2", by decide +kernel, by decide +kernel, by decide +kernel,
    by decide +kernel⟩

/-- An indent of three. -/
def indentThree : OptionPair :=
  ⟨utf8 "indent", utf8 "3", by decide +kernel, by decide +kernel, by decide +kernel,
    by decide +kernel⟩

/-- A value with the sign in it that stands behind a key. -/
def signedValue : OptionPair :=
  ⟨utf8 "a", utf8 "b=c", by decide +kernel, by decide +kernel, by decide +kernel,
    by decide +kernel⟩

/-- A sign with nothing on either side. -/
def bareSign : OptionPair := ⟨[], [], rfl, rfl, by decide, by decide⟩

/-- Pairs and blank items; one key is given twice. -/
def sampleItems : List OptionItem :=
  [.pair indentTwo .space .space .space .space, .blank .none, .blank .wide,
    .pair signedValue .none .none .none .wide, .pair bareSign .none .none .none .none,
    .pair indentThree .wide .none .space .none]

/-- Of the two values of one key the last one counts; the others are read as they are. -/
theorem optionTable_sampleItems :
    optionList sampleItems = utf8 " indent = 2 ,, \u3000,a=b=c \u3000,=, \u3000indent= 3"
      ∧ (optionTable (optionList sampleItems)).Sorted
      ∧ (utf8 "indent", utf8 "3") ∈ (optionTable (optionList sampleItems)).entries
      ∧ (utf8 "indent", utf8 "2") ∉ (optionTable (optionList sampleItems)).entries
      ∧ (utf8 "a", utf8 "b=c") ∈ (optionTable (optionList sampleItems)).entries
      ∧ ([], []) ∈ (optionTable (optionList sampleItems)).entries := by
  obtain ⟨hsorted, hentries⟩ := optionTable_items sampleItems
  refine ⟨by decide +kernel, hsorted, ?_, ?_, ?_, ?_⟩
  · exact (hentries _ _).2 (by decide +kernel)
  · intro hmem
    exact absurd ((hentries _ _).1 hmem) (by decide +kernel)
  · exact (hentries _ _).2 (by decide +kernel)
  · exact (hentries _ _).2 (by decide +kernel)

end FolioGrid.Markup
