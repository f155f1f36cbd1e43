/-
  FolioGrid.Proofs.Markup.Style
  ────────────────────────────────
  **STYLES IN WELL-FORMED TEXT.**

  A passage with styles is a tree: words, groups and wrappers, the last two of which
  hold passages again.  Taking the wrappers off its written form is taking them out of
  the tree:

      Styled.text — a node as it is written
      Styled.bare — what stands there when each wrapper has been replaced by its children

  The search goes on where a wrapper stood.  So the written form is followed from left to
  right, and a node is done before anything behind it is looked at, whatever that is
  (`Styled.unwrapStyles_textAll_append`).

  Main result: `unwrapStyles_textAll`.
-/
import FolioGrid.Markup.Style
import FolioGrid.Proofs.Markup.Balance

namespace FolioGrid.Markup

open FolioGrid.Text

variable {t u : Text} {c : Cut} {body : Argument}

/-! ## §1. One step. -/

/-- What is skipped where an option may stand. -/
def skippedOption (t : Text) : Text := t.take (t.length - (skipOption t).length)

/-- What is skipped in front and what is left make up the text. -/
theorem skippedOption_append (t : Text) : skippedOption t ++ skipOption t = t :=
  List.suffix_iff_eq_append.1 (skipOption_suffix t)

/-- What is searched in the place of a wrapper is shorter, -/
theorem length_unwrapped_lt (hc : cut? styleCommand t = some c)
    (hbody : braceArgument? (skipOption c.after) = some body) :
    (body.content ++ body.rest).length < t.length := by
  have hcut := length_of_cut? hc
  have hskip := length_skipOption_le c.after
  have hargument := Delimiters.length_lt_of_argument? hbody
  rw [List.length_append]
  omega

/-- and so is what is left behind the option of a command. -/
theorem length_skipOption_lt (hc : cut? styleCommand t = some c) :
    (skipOption c.after).length < t.length := by
  have hcut := length_of_cut? hc
  have hskip := length_skipOption_le c.after
  have hname : 0 < styleCommand.length := by decide
  omega

/-- Without a style there is nothing to take off. -/
theorem unwrapStyles_of_none (h : cut? styleCommand t = none) : unwrapStyles t = t := by
  rw [unwrapStyles]
  split
  · rfl
  · next c hc =>
    rw [h] at hc
    cases hc

/-- A wrapper is replaced by its content, which is searched with what follows. -/
theorem unwrapStyles_of_wrapper (hc : cut? styleCommand t = some c)
    (hbody : braceArgument? (skipOption c.after) = some body) :
    unwrapStyles t = c.before ++ unwrapStyles (body.content ++ body.rest) := by
  rw [unwrapStyles]
  split
  · next hnone =>
    rw [hc] at hnone
    cases hnone
  · next c' hc' =>
    cases hc.symm.trans hc'
    split
    · next body' hbody' =>
      cases hbody.symm.trans hbody'
      rfl
    · next hnone =>
      rw [hbody] at hnone
      cases hnone

/-- A command without argument stays, and so does its option. -/
theorem unwrapStyles_of_bare (hc : cut? styleCommand t = some c)
    (hbare : braceArgument? (skipOption c.after) = none) :
    unwrapStyles t = c.before ++ styleCommand ++ skippedOption c.after
      ++ unwrapStyles (skipOption c.after) := by
  rw [unwrapStyles]
  split
  · next hnone =>
    rw [hc] at hnone
    cases hnone
  · next c' hc' =>
    cases hc.symm.trans hc'
    split
    · next body hbody =>
      rw [hbare] at hbody
      cases hbody
    · rfl

/-- The search steps over what has no backslash. -/
theorem unwrapStyles_append (h : backslash ∉ t) (u : Text) :
    unwrapStyles (t ++ u) = t ++ unwrapStyles u := by
  have hskip : cut? styleCommand (t ++ u)
      = (cut? styleCommand u).map fun c => { c with before := t ++ c.before } :=
    cut?_append_of_not_mem h u
  cases hc : cut? styleCommand u with
  | none =>
    rw [hc, Option.map_none] at hskip
    rw [unwrapStyles_of_none hskip, unwrapStyles_of_none hc]
  | some c =>
    rw [hc, Option.map_some] at hskip
    cases hbody : braceArgument? (skipOption c.after) with
    | some body =>
      rw [unwrapStyles_of_wrapper hskip hbody, unwrapStyles_of_wrapper hc hbody]
      simp only [List.append_assoc]
    | none =>
      rw [unwrapStyles_of_bare hskip hbody, unwrapStyles_of_bare hc hbody]
      simp only [List.append_assoc]

/-- **A wrapper in front of a text** is taken off, and its content is searched with it. -/
theorem unwrapStyles_wrapper {options : Text} (ht : braces.Balanced t)
    (hoptions : skipOption (options ++ (group t ++ u)) = group t ++ u) :
    unwrapStyles (styleCommand ++ options ++ group t ++ u) = unwrapStyles (t ++ u) := by
  have hc : cut? styleCommand (styleCommand ++ options ++ group t ++ u)
      = some ⟨[], styleCommand, options ++ (group t ++ u)⟩ := by
    rw [List.append_assoc, List.append_assoc]
    exact cut?_append styleCommand _
  have hbody : braceArgument? (skipOption (options ++ (group t ++ u))) = some ⟨t, u, true⟩ := by
    rw [hoptions, braceArgument?_group (ht.passes braces_ne)]
  exact unwrapStyles_of_wrapper hc hbody

/-! ## §2. Passages. -/

/-- Words: a text without backslash, brace or bracket. -/
structure Words where
  /-- The bytes. -/
  text : Text
  /-- None of them belongs to the markup. -/
  free : ∀ b ∈ backslash :: delimiterBytes, b ∉ text

/-- A part of a passage with styles. -/
inductive Styled where
  /-- Words. -/
  | words (w : Words)
  /-- A group in braces. -/
  | group (children : List Styled)
  /-- Words and groups in a style, which may have options. -/
  | wrapper (options : Option Words) (children : List Styled)

namespace Styled

mutual
/-- A part of a passage as it is written. -/
def text : Styled → Text
  | .words w => w.text
  | .group children => Markup.group (textAll children)
  | .wrapper options children =>
    styleCommand ++ options.elim [] (fun o => option o.text) ++ Markup.group (textAll children)
/-- A passage as it is written. -/
def textAll : List Styled → Text
  | [] => []
  | first :: rest => first.text ++ textAll rest
end

mutual
/-- A part of a passage without wrappers: each has been replaced by its children. -/
def bare : Styled → List Styled
  | .words w => [.words w]
  | .group children => [.group (bareAll children)]
  | .wrapper _ children => bareAll children
/-- A passage without wrappers. -/
def bareAll : List Styled → List Styled
  | [] => []
  | first :: rest => first.bare ++ bareAll rest
end

/-- Trees one behind the other are written one behind the other. -/
theorem textAll_append (ss ss' : List Styled) :
    textAll (ss ++ ss') = textAll ss ++ textAll ss' := by
  induction ss with
  | nil => rfl
  | cons first rest ih =>
    show first.text ++ textAll (rest ++ ss') = first.text ++ textAll rest ++ textAll ss'
    rw [ih, List.append_assoc]

/-! ## §3. Braces in a passage. -/

/-- Words hold no brace, -/
theorem balanced_words (w : Words) : braces.Balanced w.text := by
  rw [Delimiters.balanced_iff braces_ne,
    Delimiters.depth?_of_not_mem (w.free _ (by decide)) (w.free _ (by decide))]

theorem balanced_styleCommand : braces.Balanced styleCommand := by decide +kernel

/-- nor do options of words, -/
theorem balanced_options (options : Option Words) :
    braces.Balanced (options.elim [] fun o => option o.text) := by
  cases options with
  | none => exact .nil braces_ne
  | some o =>
    have hopen : openBrace ∉ option o.text :=
      not_mem_option (by decide) (by decide) (o.free _ (by decide))
    have hclose : closeBrace ∉ option o.text :=
      not_mem_option (by decide) (by decide) (o.free _ (by decide))
    show braces.Balanced (option o.text)
    rw [Delimiters.balanced_iff braces_ne, Delimiters.depth?_of_not_mem hopen hclose]

mutual
/-- Every brace of a passage has its partner in it. -/
theorem balanced_text : ∀ s : Styled, braces.Balanced s.text
  | .words w => balanced_words w
  | .group children => balanced_group (balanced_textAll children)
  | .wrapper options children =>
    (balanced_styleCommand.append braces_ne (balanced_options options)).append braces_ne
      (balanced_group (balanced_textAll children))
/-- **so every forest is balanced.** -/
theorem balanced_textAll : ∀ ss : List Styled, braces.Balanced (textAll ss)
  | [] => .nil braces_ne
  | first :: rest => (balanced_text first).append braces_ne (balanced_textAll rest)
end

/-! ## §4. Taking the wrappers off. -/

/-- Options stand in front of the group, and without any the group follows at once. -/
theorem skipOption_options (options : Option Words) (t u : Text) :
    skipOption (options.elim [] (fun o => option o.text) ++ (Markup.group t ++ u))
      = Markup.group t ++ u := by
  cases options with
  | none => rfl
  | some o =>
    exact skipOption_option (.of_not_mem (o.free _ (by decide)) (o.free _ (by decide))) _

mutual
/-- **A part of a passage is done** before anything behind it is looked at. -/
theorem unwrapStyles_text_append :
    ∀ (s : Styled) (u : Text), unwrapStyles (s.text ++ u) = textAll s.bare ++ unwrapStyles u
  | .words w, u => by
    show unwrapStyles (w.text ++ u) = w.text ++ [] ++ unwrapStyles u
    rw [unwrapStyles_append (w.free _ (by decide)), List.append_nil]
  | .group children, u => by
    have hopen : backslash ∉ [openBrace] := by decide
    have hclose : backslash ∉ [closeBrace] := by decide
    -- the braces are passed over, and the children between them are a passage
    calc unwrapStyles (Markup.group (textAll children) ++ u)
        = unwrapStyles ([openBrace] ++ (textAll children ++ ([closeBrace] ++ u))) := by
          simp [Markup.group]
      _ = [openBrace] ++ (textAll (bareAll children) ++ ([closeBrace] ++ unwrapStyles u)) := by
          rw [unwrapStyles_append hopen, unwrapStyles_textAll_append children,
            unwrapStyles_append hclose]
      _ = textAll [.group (bareAll children)] ++ unwrapStyles u := by
          simp [textAll, text, Markup.group]
  | .wrapper options children, u => by
    show unwrapStyles (styleCommand ++ options.elim [] (fun o => option o.text)
      ++ Markup.group (textAll children) ++ u) = textAll (bareAll children) ++ unwrapStyles u
    rw [unwrapStyles_wrapper (balanced_textAll children) (skipOption_options options _ u),
      unwrapStyles_textAll_append children]
/-- A forest is unwrapped before what stands behind it. -/
theorem unwrapStyles_textAll_append :
    ∀ (ss : List Styled) (u : Text),
      unwrapStyles (textAll ss ++ u) = textAll (bareAll ss) ++ unwrapStyles u
  | [], u => rfl
  | first :: rest, u => by
    show unwrapStyles (first.text ++ textAll rest ++ u)
      = textAll (first.bare ++ bareAll rest) ++ unwrapStyles u
    rw [List.append_assoc, unwrapStyles_text_append first, unwrapStyles_textAll_append rest,
      textAll_append, List.append_assoc]
end

end Styled

/-- **The wrappers of a well-formed passage are all taken off**, however deep they are
nested and however many stand side by side; groups and words stay. -/
theorem unwrapStyles_textAll (passage : List Styled) :
    unwrapStyles (Styled.textAll passage) = Styled.textAll (Styled.bareAll passage) := by
  have hpassage := Styled.unwrapStyles_textAll_append passage []
  have hnil : unwrapStyles [] = [] := unwrapStyles_of_none (by decide +kernel)
  rw [List.append_nil, hnil, List.append_nil] at hpassage
  exact hpassage

/-- A wrapper with options around a word and another wrapper, which holds a group. -/
def nestedStyles : List Styled :=
  [.words ⟨utf8 "前", by decide +kernel⟩,
    .wrapper (some ⟨utf8 "color=red", by decide +kernel⟩)
      [.words ⟨utf8 "中", by decide +kernel⟩,
        .wrapper none [.group [.words ⟨utf8 "x", by decide +kernel⟩]]],
    .words ⟨utf8 "後", by decide +kernel⟩]

example : Styled.textAll nestedStyles = utf8 "前\\样式[color=red]\x7b中\\样式\x7b\x7bx\x7d\x7d\x7d後"
    ∧ Styled.textAll (Styled.bareAll nestedStyles) = utf8 "前中\x7bx\x7d後" := by decide +kernel

end FolioGrid.Markup
