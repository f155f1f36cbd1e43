/-
  FolioGrid.Proofs.Source.Restamping
  ────────────────────────────────
  **A SEAL IS READ BACK FROM WHAT WAS KEPT OF IT.**

  What is kept of a seal was taken by one of three ways: the argument did not
  close, or the command has its canonical form, or it has another.  Read again it
  may go another way, for a brace among the options can be left open where
  what stood behind the file is cut off.  What all three have in common is said by
  `Stamp.Kept`:

      kept_markup          — what is kept of any lines is of this kind
      Kept.markup_collect  — and what is of this kind is kept as it is
-/
import FolioGrid.Proofs.Document.Characters
import FolioGrid.Proofs.Document.Sequence
import FolioGrid.Proofs.Source.Spreading
import FolioGrid.Proofs.Text.BlankCharacters

namespace FolioGrid

open FolioGrid.Text FolioGrid.Markup

variable {m t first : Text} {rest : List Text}

namespace Stamp

/-! ## §1. The flat text of a seal. -/

/-- A line that stamps a seal starts with the command and a bracket, once its blanks are
removed. -/
theorem exists_removeBlanks_of_isStamp (h : isStamp (trim first) = true) :
    ∃ v, removeBlanks first = stampCommand ++ openBracket :: v := by
  obtain ⟨a, ha⟩ := Option.isSome_iff_exists.1 h
  obtain ⟨u, hu, ha⟩ := Option.bind_eq_some_iff.1 ha
  obtain ⟨w, hw⟩ : ∃ w, u.dropWhile isSpace = openBracket :: w := by
    rcases Delimiters.eq_of_argument? ha with ⟨heq, -⟩ | ⟨heq, -⟩
    · exact ⟨_, heq⟩
    · exact ⟨_, heq⟩
  have hblanks : Blanks wideSpace (u.takeWhile isSpace) :=
    .of_isSpace fun b hb => List.mem_takeWhile_imp hb
  have hsplit : u.takeWhile isSpace ++ openBracket :: w = u := by
    rw [← hw, List.takeWhile_append_dropWhile]
  have hseam : u.head? ≠ some 0x80 := by
    rw [← hsplit]
    cases hspaces : u.takeWhile isSpace with
    | nil =>
      show some openBracket ≠ some 0x80
      decide
    | cons b x =>
      rw [hspaces] at hblanks
      exact hblanks.head?_ne
  have hcommand : Solid stampCommand := ⟨by decide +kernel, by decide +kernel⟩
  have hbracket : removeBlanks (openBracket :: w) = openBracket :: removeBlanks w :=
    removeBlanks_cons (by decide) fun hp => absurd (List.cons_prefix_cons.1 hp).1 (by decide)
  refine ⟨removeBlanks w, ?_⟩
  rw [← removeBlanks_trim, after?_eq_some_iff.1 hu, removeBlanks_append hseam,
    hcommand.removeBlanks_eq, ← hsplit, removeBlanks_blanks_append hblanks, hbracket]

/-- The canonical form stands at the head of a text without blanks that has it. -/
theorem exists_of_canonical? {v : Text}
    (h : canonical? (stampCommand ++ openBracket :: v) = some m) :
    ∃ o f behind, m = canonical o f ∧ m ++ behind = stampCommand ++ openBracket :: v
      ∧ brackets.Passes o ∧ braces.Passes f ∧ o ≠ [] ∧ f ≠ [] := by
  have hfilled : ∀ {a b : Argument}, filled a = some b →
      b = a ∧ a.ifClosed = some a ∧ a.content ≠ [] := by
    intro a b hab
    unfold filled at hab
    obtain ⟨⟨hclosed, hne⟩, heq⟩ := Option.ite_none_right_eq_some.1 hab
    exact ⟨(Option.some.inj heq).symm, if_pos hclosed, hne⟩
  unfold canonical? at h
  rw [after?_append, Option.bind_eq_bind, Option.bind_some] at h
  obtain ⟨options, hoptions, h⟩ := Option.bind_eq_some_iff.1 h
  obtain ⟨file, hfile, h⟩ := Option.bind_eq_some_iff.1 h
  obtain ⟨options', hoption, hfull⟩ := Option.bind_eq_some_iff.1 hoptions
  obtain ⟨file', hgroup, hfull'⟩ := Option.bind_eq_some_iff.1 hfile
  obtain ⟨rfl, hclosed, hne⟩ := hfilled hfull
  obtain ⟨rfl, hclosed', hne'⟩ := hfilled hfull'
  have hhead : (openBracket :: v).dropWhile isSpace = openBracket :: v :=
    List.dropWhile_cons_of_neg (by decide)
  unfold optionalArgument? at hoption
  rw [hhead] at hoption
  obtain ⟨-, hbalanced, htext⟩ := (Delimiters.ifClosed_argument?_iff (by decide)).1
    (Option.bind_eq_some_iff.2 ⟨_, hoption, hclosed⟩)
  obtain ⟨-, hbalanced', htext'⟩ := (Delimiters.ifClosed_argument?_iff (by decide)).1
    (Option.bind_eq_some_iff.2 ⟨_, hgroup, hclosed'⟩)
  refine ⟨options.content, file.content, file.rest, ?_, ?_, hbalanced.passes (by decide),
    hbalanced'.passes (by decide), hne, hne'⟩
  · cases h
    simp [canonical]
  · cases h
    rw [htext, htext']
    simp [option, group, brackets, braces]

/-! ## §2. What is kept. -/

/-- What can be kept of a seal.  If it is read as one, either its argument does not
close, or its canonical form is itself, or it has none. -/
structure Kept (m : Text) : Prop where
  /-- It starts with the command and a bracket. -/
  opens : ∃ v, m = stampCommand ++ openBracket :: v
  /-- It holds no blank. -/
  solid : Solid m
  /-- Nothing of it is cut off. -/
  whole : closedArgument? stampCommand m = none ∨ (canonical? m).getD m = m

/-- Whether the argument closes is a matter of the braces, and not of blanks. -/
theorem closedArgument?_removeBlanks_eq_none {u v : Text}
    (hflat : removeBlanks (stampCommand ++ u) = stampCommand ++ v)
    (hopen : closedArgument? stampCommand (stampCommand ++ u) = none) :
    closedArgument? stampCommand (stampCommand ++ v) = none := by
  have hbraces : ∀ b, [openBrace, closeBrace].contains b = true →
      isSpace b = false ∧ b ∉ wideSpace := by
    intro b hb
    have hkinds : ∀ b ∈ [openBrace, closeBrace], isSpace b = false ∧ b ∉ wideSpace := by
      decide +kernel
    exact hkinds b (List.contains_iff_mem.1 hb)
  have hfilter := filter_removeBlanks hbraces (stampCommand ++ u)
  rw [hflat, List.filter_append, List.filter_append] at hfilter
  unfold closedArgument? at hopen ⊢
  rw [argumentOf?_append] at hopen ⊢
  rw [Option.eq_none_iff_forall_ne_some]
  intro a ha
  obtain ⟨a', ha', hclosed⟩ := Option.bind_eq_some_iff.1 ha
  obtain ⟨a'', ha'', hsame, -⟩ := exists_braceArgument?_of_filter_eq (by decide) (by decide)
    (List.append_cancel_left hfilter) ha'
  obtain rfl := Argument.eq_of_ifClosed hclosed
  rw [ha'', Option.bind_some, Argument.ifClosed, if_pos] at hopen
  · cases hopen
  · rw [hsame]
    exact Argument.closed_of_ifClosed hclosed

/-- **What is kept of a seal can be kept**, whichever way it was taken. -/
theorem kept_markup (hlines : ∀ l ∈ first :: rest, WellFormed l)
    (h : isStamp (trim first) = true) :
    Kept (markup (collect stampCommand (first :: rest))) := by
  obtain ⟨v, hv⟩ := exists_removeBlanks_of_isStamp h
  obtain ⟨u, hu⟩ : ∃ u, trim first = stampCommand ++ u := by
    obtain ⟨a, ha⟩ := Option.isSome_iff_exists.1 h
    obtain ⟨u, hu, -⟩ := Option.bind_eq_some_iff.1 ha
    exact ⟨u, after?_eq_some_iff.1 hu⟩
  have hflat : ∀ ls : List Text, removeBlanks (gathered (first :: ls))
      = stampCommand ++ openBracket :: (v ++ ls.flatMap removeBlanks) := by
    intro ls
    rw [removeBlanks_gathered, List.flatMap_cons, hv, List.append_assoc, List.cons_append]
  have hsolid : Solid (removeBlanks (collect stampCommand (first :: rest)).text) :=
    solid_removeBlanks (wellFormed_collect _ hlines).1
  have hcollects := collects stampCommand (first :: rest)
  generalize collect stampCommand (first :: rest) = c at hsolid hcollects ⊢
  cases hcollects with
  | unclosed hopen =>
    rw [hflat] at hsolid
    refine ⟨⟨_, hflat rest⟩, ?_, Or.inl ?_⟩
    · rwa [← hflat rest] at hsolid
    · -- the argument is left open by the lines as they are, so by the flat text
      obtain ⟨w, hw⟩ := gathered_take_prefix 1 (first :: rest)
      rw [List.take_succ_cons, List.take_zero, gathered_singleton, hu, List.append_assoc] at hw
      have hall := hopen (first :: rest).length
      rw [List.take_length, ← hw] at hall
      have hnone := closedArgument?_removeBlanks_eq_none (hw ▸ hflat rest) hall
      rwa [← hflat rest] at hnone
  | @closed k a hk hopen hclosed =>
    obtain ⟨j, rfl⟩ : ∃ j, k = j + 1 := by
      cases k with
      | zero =>
        rw [List.take_zero, gathered_nil, closedArgument?_nil] at hclosed
        cases hclosed
      | succ j => exact ⟨j, rfl⟩
    rw [List.take_succ_cons] at hsolid ⊢
    have htext := hflat (rest.take j)
    show Kept ((canonical? (removeBlanks (gathered (first :: rest.take j)))).getD
      (removeBlanks (gathered (first :: rest.take j))))
    rw [htext] at hsolid ⊢
    cases hcanonical : canonical? (stampCommand ++ openBracket :: (v ++ (rest.take j).flatMap
        removeBlanks)) with
    | none => exact ⟨⟨_, rfl⟩, hsolid, Or.inr (by rw [Option.getD_none, hcanonical]; rfl)⟩
    | some m =>
      obtain ⟨o, f, behind, rfl, hm, ho, hf, hne⟩ := exists_of_canonical? hcanonical
      rw [Option.getD_some]
      have hself : canonical? (canonical o f) = some (canonical o f) := by
        have hline : canonical? (commandLine stampCommand (some o) f []) = _ :=
          canonical?_line ho hf hne
        rwa [← canonical_eq] at hline
      rw [← hm] at hsolid
      refine ⟨⟨_, canonical_eq_append o f⟩, hsolid.of_infix (List.prefix_append _ _).isInfix,
        Or.inr ?_⟩
      rw [hself, Option.getD_some]

/-- **What can be kept is kept as it is**, whatever blank lines stand below. -/
theorem Kept.markup_collect (h : Kept m) {blank : List Text} (hblank : ∀ l ∈ blank, trim l = []) :
    markup (collect stampCommand (m :: blank)) = m := by
  have hgathered : ∀ k, ∃ u, (∀ b, b ≠ lineFeed → b ∉ u)
      ∧ gathered (m :: blank.take k) = m ++ u := by
    intro k
    obtain ⟨u, hu, hm⟩ := exists_gathered_append_blank [m]
      (fun l hl => hblank l (List.mem_of_mem_take hl) : ∀ l ∈ blank.take k, trim l = [])
    rw [gathered_singleton, h.solid.trim_eq] at hm
    exact ⟨u, hu, hm⟩
  have hflat : ∀ k, removeBlanks (gathered (m :: blank.take k)) = m := by
    intro k
    have hnone : (blank.take k).flatMap removeBlanks = [] := by
      rw [List.flatMap_eq_nil_iff]
      intro l hl
      rw [← removeBlanks_trim, hblank l (List.mem_of_mem_take hl)]
      rfl
    rw [removeBlanks_gathered, List.flatMap_cons, hnone, h.solid.removeBlanks_eq, List.append_nil]
  have hcollects := collects stampCommand (m :: blank)
  generalize collect stampCommand (m :: blank) = c at hcollects ⊢
  cases hcollects with
  | unclosed hopen =>
    have hall := hflat blank.length
    rwa [List.take_length] at hall
  | @closed k a hk hopen hclosed =>
    cases k with
    | zero =>
      rw [List.take_zero, gathered_nil, closedArgument?_nil] at hclosed
      cases hclosed
    | succ k =>
      rw [List.take_succ_cons] at hclosed ⊢
      show (canonical? (removeBlanks (gathered (m :: blank.take k)))).getD
        (removeBlanks (gathered (m :: blank.take k))) = m
      rw [hflat]
      refine h.whole.resolve_left fun hnone => ?_
      obtain ⟨u, hu, hm⟩ := hgathered k
      rw [hm, closedArgument?_append_eq_none (hu closeBrace (by decide)) hnone] at hclosed
      cases hclosed

end Stamp

/-! ## §3. Where seals come from. -/

/-- A seal that a line gives was collected from the line and those below it. -/
theorem Line.Gives.stamp_eq {d : Dialect} (hd : d.BuiltIn) {line : Text} {ls : List Text}
    (h : Line.Gives d line ls (.stamp m)) :
    Stamp.isStamp line = true ∧ m = Stamp.markup (collect Stamp.stampCommand ls) := by
  cases h with
  | stamp hstamp => exact ⟨hstamp, rfl⟩
  | paragraph _ hb =>
    obtain ⟨p, hp⟩ := Line.exists_paragraph_of_mem_read hb
    cases hp
  | entry hentry =>
    obtain ⟨level, t, ht⟩ := Line.exists_entry_of_ofLine? hentry
    cases ht
  | command hread hb =>
    -- a dialect makes glosses only
    cases hd with
    | plain => cases hread
    | catalogue =>
      rcases Catalogue.eq_of_readCommand hread with ⟨-, rfl⟩ | ⟨-, rfl⟩
      · obtain ⟨a, -, ha⟩ := List.mem_map.1 (show Block.stamp m ∈ List.map _ _ from hb)
        cases ha
      · obtain ⟨a, -, ha⟩ := List.mem_map.1 (show Block.stamp m ∈ List.map _ _ from hb)
        cases ha

theorem kept_of_mem_readLines {d : Dialect} (hd : d.BuiltIn) {ls : List Text}
    (hls : ∀ l ∈ ls, WellFormed l) (h : Block.stamp m ∈ (readLines d ls).blocks) :
    Stamp.Kept m := by
  obtain ⟨first, rest, hsuffix, hread, -⟩ := exists_read_of_mem_readLines ls h
  obtain ⟨hstamp, rfl⟩ := (Line.gives_of_mem_read hread).stamp_eq hd
  rw [hd.readAs_eq, Option.getD_none, trim_trimRight] at hstamp
  exact Stamp.kept_markup (fun l hl => hls l (hsuffix.subset hl)) hstamp

/-! ## §4. Reading it again. -/

theorem blocks_readLines_blank {d : Dialect} {ls : List Text} (h : ∀ l ∈ ls, l = []) :
    (readLines d ls).blocks = [] := by
  induction ls with
  | nil =>
    rw [readLines_nil]
    rfl
  | cons l ls ih =>
    rw [List.forall_mem_cons] at h
    rw [h.1, readLines_blank, ih h.2]

/-- What can be kept of a seal is one seal, if no line but its own says anything. -/
theorem Stamp.Kept.blocks_readLines {d : Dialect} (hd : d.BuiltIn) (h : Stamp.Kept m)
    {ls : List Text} (hls : (ls.map trim).filter (· ≠ []) = [m]) :
    (readLines d ls).blocks = [.stamp m] := by
  have htrim : ls.map trim = (ls.map trim).map trim := by
    rw [List.map_map]
    exact List.map_congr_left fun l _ => (trim_trim l).symm
  rw [readLines_congr hd htrim]
  obtain ⟨above, below, hlines, habove, -, hbelow⟩ := List.filter_eq_cons_iff.1 hls
  rw [hlines]
  have hempty : ∀ l ∈ below, l = [] := by
    intro l hl
    by_contra hne
    exact absurd (List.filter_eq_nil_iff.1 hbelow l hl) (by simpa using hne)
  clear hls htrim hlines
  induction above with
  | nil =>
    obtain ⟨v, hv⟩ := h.opens
    have hread : Line.read d m below = Stamp.read (m :: below) := by
      rw [hv]
      exact Stamp.read_openBracket hd v below
    have hmarkup := h.markup_collect fun l hl => by
      rw [hempty l hl]
      rfl
    rw [List.nil_append, readLines_cons, Reading.blocks_append, hread,
      blocks_readLines_blank fun l hl => hempty l (List.mem_of_mem_drop hl), List.append_nil]
    show [Block.stamp (Stamp.markup (collect Stamp.stampCommand (m :: below)))] = [.stamp m]
    rw [hmarkup]
  | cons l above ih =>
    rw [List.forall_mem_cons] at habove
    obtain rfl : l = [] := by simpa using habove.1
    rw [List.cons_append, readLines_blank]
    exact ih habove.2

/-- **A seal is kept in a form that stays.** Take any seal that a well-formed content
gives in a dialect that has a name.  A document of which the seal's markup is the
only line that is not blank gives this seal and nothing else; so does the document
of the markup alone, if no mark of an end stands in it. -/
theorem Document.ofText_restamped {name content : Text} {d : Dialect} {doc : Document}
    {markup : Text} (hd : Dialect.named name = .ok d) (hcontent : WellFormed content)
    (hdoc : Document.ofText d content = .ok doc) (hstamp : Block.stamp markup ∈ doc.blocks) :
    (∀ t parts, Parts.ofText t = .ok parts →
        ((bodyLines parts.body).map trim).filter (· ≠ []) = [markup] →
        ∃ again, Document.ofText d t = .ok again ∧ again.blocks = [.stamp markup])
      ∧ ((∀ m ∈ documentEnd :: bodyEnds, ¬ m <:+: markup) →
        ∃ again, Document.ofText d (inDocument markup) = .ok again
          ∧ again.blocks = [.stamp markup]) := by
  have hbuiltIn := Dialect.builtIn_of_named hd
  obtain ⟨parts, hparts, rfl⟩ := Document.ofText_eq_ok_iff.1 hdoc
  have hread : Block.stamp markup ∈ d.finish (readLines d (bodyLines parts.body)).blocks := hstamp
  rw [hbuiltIn.finish_eq] at hread
  have hkept := kept_of_mem_readLines hbuiltIn
    (wellFormed_of_mem_bodyLines (Parts.wellFormed hcontent hparts).2.2.1) hread
  constructor
  · intro t parts' hparts' hlines
    refine ⟨_, Document.ofText_eq_ok_iff.2 ⟨parts', hparts', rfl⟩, ?_⟩
    show d.finish (readLines d (bodyLines parts'.body)).blocks = _
    rw [hbuiltIn.finish_eq, hkept.blocks_readLines hbuiltIn hlines]
  · intro hends
    have hlines : (([markup] ++ [[]]).map trim).filter (· ≠ []) = [markup] := by
      obtain ⟨v, hv⟩ := hkept.opens
      have hne : markup ≠ [] := by
        rw [hv]
        exact List.append_ne_nil_of_left_ne_nil (by decide) _
      show [trim markup, trim []].filter (· ≠ []) = [markup]
      rw [hkept.solid.trim_eq]
      simp [hne, show trim [] = [] from rfl]
    have hbare : Document.ofText d (inDocument (joinLines [markup]))
        = .ok (.bare (readLines d ([markup] ++ [[]]))) := by
      refine Document.ofText_joinLines hbuiltIn (fun l hl => ?_) fun l hl => ?_
      · rw [List.mem_singleton.1 hl]
        exact hkept.solid.lineFeed_not_mem
      · rw [List.mem_singleton.1 hl]
        exact hends
    rw [show joinLines [markup] = markup from List.intercalate_singleton] at hbare
    exact ⟨_, hbare, hkept.blocks_readLines hbuiltIn hlines⟩

/-- A page with a seal that has a brace among its options, closed by one behind the
file. -/
def tornSealPage : Text :=
  utf8 ("\\begin\x7bdocument\x7d\n\\begin\x7b正文\x7d\n\\印章[a\x7bb]\x7b\n c\x7d d\x7d\n"
    ++ "\\end\x7b正文\x7d\n\\end\x7bdocument\x7d")

/-- What is kept of the seal.  Its braces no longer close. -/
def cutSeal : Text := utf8 "\\印章[a\x7bb]\x7bc\x7d"

theorem blocks_cutSeal :
    ∃ doc again, Document.ofText .plain tornSealPage = .ok doc
      ∧ doc.blocks = [.stamp cutSeal] ∧ doc.unbalanced = 0
      ∧ Document.ofText .plain (inDocument cutSeal) = .ok again
      ∧ again.blocks = [.stamp cutSeal] := by
  have hdoc : Document.ofText .plain tornSealPage = .ok (.bare { blocks := [.stamp cutSeal] }) := by
    decide +kernel
  obtain ⟨-, hagain⟩ := Document.ofText_restamped (rfl : Dialect.named [] = .ok .plain)
    (wellFormed_utf8 _) hdoc (List.mem_singleton_self _)
  obtain ⟨again, hread, hblocks⟩ := hagain (by decide +kernel)
  exact ⟨_, again, hdoc, rfl, rfl, hread, hblocks⟩

end FolioGrid
