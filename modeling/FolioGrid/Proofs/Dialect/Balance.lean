/-
  FolioGrid.Proofs.Dialect.Balance
  ────────────────────────────────
  **GLOSSES ARE BALANCED.**

  The argument of a gloss that was closed is balanced in braces.  It is cut at
  its commands into runs, and what the commands themselves take away is balanced,
  so the text of the gloss is balanced as a whole, though its segments need not
  be: a command may stand inside a group.

      depth?_events, depth?_segmentsFrom — the depth is kept step by step

  Main result: `balanced_of_mem_readGloss`.
-/
import FolioGrid.Proofs.Dialect.Characters
import FolioGrid.Proofs.Markup.Balance

namespace FolioGrid

open FolioGrid.Text FolioGrid.Markup

variable {t : Text}

/-! ## §1. Collected arguments. -/

/-- An argument that is closed is balanced, also in one line. -/
theorem balanced_of_argumentOf? {command : Text} {a : Argument}
    (h : (argumentOf? command t).bind Argument.ifClosed = some a) :
    braces.Balanced (oneLine a.content) := by
  obtain ⟨a', ha, hclosed⟩ := Option.bind_eq_some_iff.1 h
  cases Argument.eq_of_ifClosed hclosed
  obtain ⟨c, -, ha⟩ := Option.bind_eq_some_iff.1 ha
  have hcontent : braces.Balanced a.content :=
    Delimiters.balanced_of_argument? braces_ne ha (Argument.closed_of_ifClosed hclosed)
  -- a line feed is no brace
  exact hcontent.congr braces_ne (Delimiters.depth?_filter (by decide) (by decide) _)

/-- **A collected argument is balanced**, if it was closed. -/
theorem balanced_of_collect {command : Text} {ls : List Text}
    (h : (collect command ls).closed = true) : braces.Balanced (collect command ls).content := by
  have hgo : ∀ (rest : List Text) (text : Text) (taken : Nat),
      (collect.go command text taken rest).closed = true →
        braces.Balanced (collect.go command text taken rest).content := by
    intro rest
    induction rest with
    | nil =>
      intro text taken h
      unfold collect.go at h ⊢
      split
      · next a ha => exact balanced_of_argumentOf? ha
      · next hnone =>
        rw [hnone] at h
        cases h
    | cons next rest ih =>
      intro text taken h
      unfold collect.go at h ⊢
      split
      · next a ha => exact balanced_of_argumentOf? ha
      · next hnone =>
        rw [hnone] at h
        exact ih _ _ h
  cases ls with
  | nil => cases h
  | cons first rest => exact hgo rest _ _ h

/-! ## §2. Events. -/

namespace Elevation

/-- A level is a numeral, so its option holds no brace. -/
theorem depth?_of_count? {n : Nat} (h : count? (trim t) = some n) : braces.depth? t = some := by
  unfold count? at h
  rw [Option.ite_none_right_eq_some, Bool.and_eq_true] at h
  obtain ⟨⟨hnumeral, -⟩, -⟩ := h
  have hdigits : ∀ b ∈ trim t, isDigit b = true := by
    unfold isNumeral at hnumeral
    rw [Bool.and_eq_true] at hnumeral
    exact List.all_eq_true.1 hnumeral.2
  rw [← depth?_trim]
  exact Delimiters.depth?_of_forall hdigits (by decide) (by decide)

/-- To take a raise apart loses no brace, but the two around its words, which balance each
other. -/
theorem depth?_words_of_raiseArguments? {e : Event} {rest : Text}
    (h : raiseArguments? t = some (e, rest)) :
    braces.depth? (e.words ++ rest) = braces.depth? t := by
  obtain ⟨level, hlevel, h⟩ := Option.bind_eq_some_iff.1 h
  obtain ⟨body, hbody, h⟩ := Option.bind_eq_some_iff.1 h
  obtain ⟨n, hn, h⟩ := Option.bind_eq_some_iff.1 h
  obtain ⟨level', hlevel, hlevelClosed⟩ := Option.bind_eq_some_iff.1 hlevel
  cases Argument.eq_of_ifClosed hlevelClosed
  obtain ⟨body', hbody, hbodyClosed⟩ := Option.bind_eq_some_iff.1 hbody
  cases Argument.eq_of_ifClosed hbodyClosed
  cases h
  have hskip : skipOption t = level.rest := by
    unfold skipOption
    rw [hlevel]
  have hoption : ∀ a ∈ optionalArgument? t, braces.depth? a.content = some := by
    intro a ha
    cases hlevel.symm.trans ha
    exact depth?_of_count? hn
  have hne : skipOption t ≠ [] := by
    rw [hskip]
    intro hnil
    rw [hnil] at hbody
    cases hbody
  have hblanks : braces.depth? (level.rest.takeWhile (· = ascii ' ')) = some :=
    Delimiters.depth?_of_forall (fun _ => List.mem_takeWhile_imp) (by decide) (by decide)
  have hclosed := Argument.closed_of_ifClosed hbodyClosed
  calc braces.depth? (body.content ++ body.rest)
      = braces.depth? (level.rest.dropWhile (· = ascii ' ')) :=
        (Delimiters.depth?_argument braces_ne hbody hclosed).symm
    _ = braces.depth? level.rest := by
        conv => rhs; rw [← List.takeWhile_append_dropWhile (p := (· = ascii ' ')) (l := level.rest)]
        rw [Delimiters.depth?_append_left hblanks]
    _ = braces.depth? t := by rw [← hskip, depth?_skipOption hoption hne]

/-- What a command takes away is balanced. -/
theorem depth?_words_of_command? {found : List Event} {rest : Text}
    (h : command? t = some (found, rest)) :
    braces.depth? (found.flatMap Event.words ++ rest) = braces.depth? t := by
  -- each token is free of braces, so what stands behind it has the depth of the text
  have behind : ∀ {token u : Text}, after? token t = some u →
      openBrace ∉ token ∧ closeBrace ∉ token → braces.depth? u = braces.depth? t := by
    intro token u hu htoken
    rw [after?_eq_some_iff.1 hu,
      Delimiters.depth?_append_left (Delimiters.depth?_of_not_mem htoken.1 htoken.2)]
  unfold command? at h
  split at h
  · next u hu =>
    cases h
    exact behind hu (by decide +kernel)
  split at h
  · next u hu =>
    have hu' := behind hu (by decide +kernel)
    split at h
    · next e rest hraise =>
      cases h
      rw [List.flatMap_singleton, depth?_words_of_raiseArguments? hraise, hu']
    · cases h
      exact hu'
  split at h
  · next u hu =>
    cases h
    exact behind hu (by decide +kernel)
  split at h
  · next u hu =>
    cases h
    exact behind hu (by decide +kernel)
  split at h
  · next u hu =>
    cases h
    exact behind hu (by decide +kernel)
  · cases h

/-- The words of a gloss's events have the depth of its text. -/
theorem depth?_events (passed : Text) :
    braces.depth? ((events.go passed t).flatMap Event.words)
      = braces.depth? (passed.reverse ++ t) := by
  fun_induction events.go passed t with
  | case1 passed t found rest hcommand ih =>
    rw [List.reverse_nil, List.nil_append] at ih
    rw [List.cons_append, List.flatMap_cons, List.flatMap_append]
    refine Delimiters.depth?_append_congr rfl ?_
    rw [← depth?_words_of_command? hcommand]
    exact Delimiters.depth?_append_congr rfl ih
  | case2 passed hnone => rw [List.flatMap_singleton, List.append_nil]; rfl
  | case3 passed b rest hnone ih => rw [ih, List.reverse_cons, List.append_assoc]; rfl

/-- What is dropped between words are blanks. -/
theorem depth?_of_trim_eq_nil (h : trim t = []) : braces.depth? t = some := by
  rw [← depth?_trim, h]
  rfl

/-- Nor is one lost where events become segments, -/
theorem depth?_segmentsFrom {base indent : Int} {pending : Bool} {es : List Event} :
    braces.depth? ((segmentsFrom base indent pending es).flatMap (·.text))
      = braces.depth? (es.flatMap Event.words) := by
  fun_induction segmentsFrom base indent pending es with
  | case1 => rfl
  | case2 indent pending t es hblank ih =>
    rw [ih, List.flatMap_cons]
    exact (Delimiters.depth?_append_left (depth?_of_trim_eq_nil hblank) _).symm
  | case3 indent pending t es hblank ih =>
    rw [List.flatMap_cons, List.flatMap_cons]
    exact Delimiters.depth?_append_congr (depth?_trim t) ih
  | case4 indent pending es ih => exact ih
  | case5 indent pending place es ih => exact ih
  | case6 indent pending es ih =>
    have hname : braces.depth? dynastyName = some :=
      Delimiters.depth?_of_not_mem (by decide +kernel) (by decide +kernel)
    rw [List.flatMap_cons, Delimiters.depth?_append_left hname]
    exact ih
  | case7 indent pending level t es hblank ih =>
    rw [ih, List.flatMap_cons]
    exact (Delimiters.depth?_append_left (depth?_of_trim_eq_nil hblank) _).symm
  | case8 indent pending level t es hblank ih =>
    rw [List.flatMap_cons, List.flatMap_cons]
    exact Delimiters.depth?_append_congr (depth?_trim t) ih

/-- **The segments of a gloss have the depth of its text.** -/
theorem depth?_expand (t : Text) (base : Int) :
    braces.depth? ((expand t base).value.flatMap (·.text)) = braces.depth? t :=
  depth?_segmentsFrom.trans (depth?_events [])

end Elevation

/-! ## §3. Glosses. -/

namespace Catalogue

/-- where segments are cleaned, -/
theorem depth?_cleanSegments {carried : Bool} {segments : List Segment} :
    braces.depth? ((cleanSegments carried segments).flatMap (·.text))
      = braces.depth? (segments.flatMap (·.text)) := by
  induction segments generalizing carried with
  | nil => rfl
  | cons g rest ih =>
    unfold cleanSegments
    split
    · next hclean =>
      have hg : braces.depth? g.text = some := by
        rw [← depth?_clean, hclean]
        rfl
      rw [ih, List.flatMap_cons, Delimiters.depth?_append_left hg]
    · rw [List.flatMap_cons, List.flatMap_cons]
      exact Delimiters.depth?_append_congr (depth?_clean g.text) ih

/-- or where they make a gloss. -/
theorem text_of_gloss? {indent : Int} {segments : List Segment} {a : Gloss}
    (h : gloss? indent segments = some a) : a.text = segments.flatMap (·.text) := by
  cases segments with
  | nil => cases h
  | cons g rest =>
    cases h
    rfl

/-- **The text of a gloss is balanced**, if its argument was closed, and if the
options are balanced of the style wrappers that are taken off it. -/
theorem balanced_of_mem_readGloss {command : Text} {indent : Int} {unwrap : Bool}
    {ls : List Text} {a : Gloss} (hclosed : (collect command ls).closed = true)
    (hoptions : unwrap = true → ∀ o ∈ styleOptions (collect command ls).content, braces.Balanced o)
    (h : Block.gloss a ∈ (readGloss command indent unwrap ls).blocks) :
    braces.Balanced a.text := by
  obtain ⟨a', ha, heq⟩ := List.mem_map.1 (show Block.gloss a ∈ List.map _ _ from h)
  cases heq
  have hcontent := (Delimiters.balanced_iff braces_ne).1 (balanced_of_collect hclosed)
  have hread : braces.depth? (if unwrap then unwrapStyles (collect command ls).content
      else (collect command ls).content) 0 = some 0 := by
    cases unwrap with
    | true => exact depth?_unwrapStyles (hoptions rfl) hcontent
    | false => exact hcontent
  rw [Delimiters.balanced_iff braces_ne, text_of_gloss? (Option.mem_toList.1 ha),
    depth?_cleanSegments, Elevation.depth?_expand]
  exact hread

end Catalogue

end FolioGrid
