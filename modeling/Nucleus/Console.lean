import Nucleus.Journal.Level

/-!
# The console

Text for the console is a template: fixed wording, and arguments that are turned into text as they
are printed. An argument is rendered once for each place it has in what is printed, so a record
whose level is not wanted costs no rendering at all.
-/
namespace Nucleus

/-- A part of a text to print. -/
inductive Piece
  | wording (s : String)
  | argument (s : String)
deriving DecidableEq, Repr

/-- A text to print. -/
abbrev Template := List Piece

namespace Template

/-- The text as printed. -/
def text (t : Template) : String :=
  String.join (t.map fun
    | .wording s => s
    | .argument s => s)

/-- How many arguments are rendered when the text is printed. -/
def rendered (t : Template) : Nat :=
  t.countP fun
    | .argument _ => true
    | .wording _ => false

/-- The text with the end of a line. -/
def line (t : Template) : Template := t ++ [.wording "\n"]

end Template

/-- The line for a record: its level in a column of five, its target, and its message; nothing when
the level is not wanted. -/
def recordLine (v : Verbosity) (l : Level) (target message : String) : Template :=
  if v.admits l then
    let column := String.ofList (List.replicate (5 - l.name.length) ' ')
    Template.line [.wording s!"[{l.name}{column} {target}] ", .argument message]
  else []

end Nucleus
