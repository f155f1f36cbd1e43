/-
  FolioGrid.Reading.Entry
  ────────────────────────────────
  **CATALOGUE ENTRIES.**

  `\条目[n]` and a brace argument make an entry of level `n`.  The argument
  reaches to the last closing brace of the line.  A gloss command
  inside it is flattened: the entry then ends with the gloss's words.
-/
import FolioGrid.Markup.Argument
import FolioGrid.Markup.Command
import FolioGrid.Notice
import FolioGrid.Text.Number
import FolioGrid.Text.Punctuation

namespace FolioGrid.Entry

open FolioGrid.Text FolioGrid.Markup

/-- The command of an entry. -/
def entryCommand : Text := command "条目"

/-- The command of a gloss inside an entry. -/
def innerGloss : Text := command "夹注"

/-- What stands between a brace at the head of a text and the last closing
brace, if it is not empty. -/
def widestGroup? : Text → Option Text
  | [] => none
  | b :: rest => if b = openBrace then (beforeLast? closeBrace rest).filter (· ≠ []) else none

/-- The words of an entry, with a gloss inside it flattened. -/
def flatten (t : Text) : Text :=
  match cut? innerGloss t with
  | none => t
  | some c =>
    match braceArgument? (skipOption c.after) with
    | some body => trim c.before ++ stripPunctuation body.content
    | none => t

/-- The digits of an entry's level and what follows them, of a line that
starts with an entry. -/
def level? (line : Text) : Option (Text × Text) := do
  let arguments ← after? entryCommand line
  let level ← (brackets.argument? arguments).bind Argument.ifClosed
  if isNumeral level.content then pure (level.content, level.rest) else none

/-- The entry that a line makes, if it makes one.  A level too large to count
is reported, and the line is no entry. -/
def ofLine? (line : Text) : Logged (Option Block) :=
  match level? line with
  | none => ⟨none, []⟩
  | some (digits, rest) =>
    match count? digits with
    | none => ⟨none, [.levelOutOfRange digits]⟩
    | some n => ⟨(widestGroup? rest).map fun t => .entry n (flatten (clean t)), []⟩

end FolioGrid.Entry
