/-
  FolioGrid.Markup.Style
  ────────────────────────────────
  **STYLE WRAPPERS.**

  `\样式[…]` and a brace argument set the look of a passage.  The grid has no
  use for looks, so a wrapper is replaced by what it wraps, which is searched
  again, since wrappers nest.  A style command without a brace argument wraps
  nothing and stays.
-/
import FolioGrid.Markup.Argument
import FolioGrid.Markup.Command

namespace FolioGrid.Markup

open FolioGrid.Text

/-- The command that wraps a passage in a style. -/
def styleCommand : Text := command "样式"

/-- A text with each style wrapper replaced by its content. -/
def unwrapStyles (t : Text) : Text :=
  match _h : cut? styleCommand t with
  | none => t
  | some c =>
    match _hb : braceArgument? (skipOption c.after) with
    | some body => c.before ++ unwrapStyles (body.content ++ body.rest)
    | none =>
      c.before ++ styleCommand
        ++ c.after.take (c.after.length - (skipOption c.after).length)
        ++ unwrapStyles (skipOption c.after)
termination_by t.length
decreasing_by
  · have h1 := length_of_cut? _h
    have h2 := length_skipOption_le c.after
    have h3 := Delimiters.length_lt_of_argument? _hb
    simp only [List.length_append]
    omega
  · have h1 := length_of_cut? _h
    have h2 := length_skipOption_le c.after
    have h4 : 0 < styleCommand.length := by decide
    omega

end FolioGrid.Markup
