/-
  FolioGrid.Proofs.Dialect.Glosses
  ────────────────────────────────
  **THE GLOSSES OF A BODY.**

  Only a dialect makes glosses, and the dialects that a conversion can be asked
  for (`Dialect.BuiltIn`) make coherent ones: the text of a gloss is put
  together from the segments that go with it.
-/
import FolioGrid.Dialect.Named
import FolioGrid.Proofs.Layout.Items
import FolioGrid.Proofs.Reading.Origin

namespace FolioGrid

open FolioGrid.Text FolioGrid.Markup

/-! ## §1. Built-in dialects. -/

/-- The dialects that a conversion can be asked for. -/
inductive Dialect.BuiltIn : Dialect → Prop where
  /-- The dialect that adds nothing. -/
  | plain : BuiltIn .plain
  /-- The dialect of the catalogue. -/
  | catalogue : BuiltIn Catalogue.dialect

/-- No other dialect has a name. -/
theorem Dialect.builtIn_of_named {name : Text} {d : Dialect} (h : Dialect.named name = .ok d) :
    d.BuiltIn := by
  unfold Dialect.named at h
  split at h
  · cases h
    exact .plain
  split at h
  · next entry hentry =>
    cases h
    have hmem : entry ∈ [(utf8 "siku-mulu", Catalogue.dialect)] :=
      List.mem_of_find?_eq_some hentry
    rw [List.mem_singleton.1 hmem]
    exact .catalogue
  · cases h

theorem Dialect.BuiltIn.finish_eq {d : Dialect} (hd : d.BuiltIn) (blocks : List Block) :
    d.finish blocks = blocks := by
  cases hd <;> rfl

theorem Dialect.BuiltIn.readAs_eq {d : Dialect} (hd : d.BuiltIn) (line : Text) :
    d.readAs line = none := by
  cases hd <;> rfl

/-! ## §2. Coherence. -/

/-- What goes onto the grid are segments without their punctuation that have words left,
each where it stood. -/
theorem Catalogue.exists_of_mem_cleanSegments {carried : Bool} {segments : List Segment}
    {s : Segment} (h : s ∈ Catalogue.cleanSegments carried segments) :
    ∃ s' ∈ segments, s.text = clean s'.text ∧ s.text ≠ [] ∧ s.delta = s'.delta := by
  induction segments generalizing carried with
  | nil => cases h
  | cons first rest ih =>
    have hrest : ∀ {carried : Bool}, s ∈ Catalogue.cleanSegments carried rest →
        ∃ s' ∈ first :: rest, s.text = clean s'.text ∧ s.text ≠ [] ∧ s.delta = s'.delta := by
      intro carried hs
      obtain ⟨s', hs', heq⟩ := ih hs
      exact ⟨s', List.mem_cons_of_mem first hs', heq⟩
    unfold Catalogue.cleanSegments at h
    split at h
    · exact hrest h
    · next hclean =>
      rcases List.mem_cons.1 h with rfl | h
      · exact ⟨first, List.mem_cons_self, rfl, hclean, rfl⟩
      · exact hrest h

theorem Catalogue.coherent_of_gloss? {indent : Int} {segments : List Segment} {a : Gloss}
    (h : Catalogue.gloss? indent segments = some a) : a.Coherent := by
  cases segments with
  | nil => cases h
  | cons s rest =>
    cases h
    -- segments are kept unless there is one that neither rises nor sinks
    by_cases hone : rest = [] ∧ s.delta = 0
    · exact Or.inl (if_pos hone)
    · refine Or.inr ?_
      show (if rest = [] ∧ s.delta = 0 then [] else s :: rest).flatMap (·.text) = _
      rw [if_neg hone]

theorem Catalogue.coherent_of_mem_readGloss {command : Text} {indent : Int} {unwrap : Bool}
    {lines : List Text} {a : Gloss}
    (h : Block.gloss a ∈ (Catalogue.readGloss command indent unwrap lines).blocks) :
    a.Coherent := by
  obtain ⟨c, hc, hca⟩ := List.mem_map.1 (show Block.gloss a ∈ List.map _ _ from h)
  cases hca
  exact Catalogue.coherent_of_gloss? (Option.mem_toList.1 hc)

/-- The dialect of the catalogue knows two commands. -/
theorem Catalogue.eq_of_readCommand {name line : Text} {lines : List Text} {r : Reading}
    (h : Catalogue.dialect.readCommand name line lines = some r) :
    name = utf8 "注" ∧ r = Catalogue.readGloss (Markup.command "注") glossIndent true lines
      ∨ name = utf8 "按" ∧ r = Catalogue.readGloss (Markup.command "按") noteIndent false lines := by
  change Catalogue.readCommand name line lines = some r at h
  unfold Catalogue.readCommand at h
  split at h
  · next hname => exact Or.inl ⟨hname, (Option.some.inj h).symm⟩
  split at h
  · next hname => exact Or.inr ⟨hname, (Option.some.inj h).symm⟩
  · cases h

/-- A gloss that a line gives is coherent. -/
theorem Line.Gives.coherent {d : Dialect} (hd : d.BuiltIn) {line : Text} {lines : List Text}
    {a : Gloss} (h : Line.Gives d line lines (.gloss a)) : a.Coherent := by
  cases h with
  | paragraph _ hb =>
    -- a paragraph is none
    obtain ⟨p, hp⟩ := Line.exists_paragraph_of_mem_read hb
    cases hp
  | entry h =>
    -- and neither is an entry
    obtain ⟨level, t, ht⟩ := Line.exists_entry_of_ofLine? h
    cases ht
  | command h hb =>
    cases hd with
    | plain => cases h
    | catalogue =>
      rcases Catalogue.eq_of_readCommand h with ⟨-, rfl⟩ | ⟨-, rfl⟩
      · exact Catalogue.coherent_of_mem_readGloss hb
      · exact Catalogue.coherent_of_mem_readGloss hb

/-- **The glosses of a body are coherent.** -/
theorem coherent_of_mem_readLines {d : Dialect} (hd : d.BuiltIn) {lines : List Text} {a : Gloss}
    (h : Block.gloss a ∈ (readLines d lines).blocks) : a.Coherent := by
  obtain ⟨first, rest, -, hb, -⟩ := exists_read_of_mem_readLines lines h
  exact (Line.gives_of_mem_read hb).coherent hd

end FolioGrid
