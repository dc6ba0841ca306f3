import StoryFlow.Text.Blank

/-! # Text in Ink

A text is written so that a reader takes it for text: syntax characters get a backslash, arrows
and comments are broken up by one, and so is what would start a choice, a gather or a knot.
-/

namespace StoryFlow.Ink

/-- Characters that are syntax wherever they stand. -/
def isSyntaxChar (c : Char) : Bool :=
  c == '[' || c == ']' || c == '\x7b' || c == '\x7d' || c == '#' || c == '|' || c == '~' || c == '\\'

/-- The first half of an arrow or of a comment mark. -/
def opensPair (c : Char) (next : Option Char) : Bool :=
  (c == '-' && next == some '>') || (c == '/' && next == some '/')

/-- Puts a backslash before syntax characters and inside arrows and comment marks. -/
def escapeBody : List Char → List Char
  | [] => []
  | c :: cs =>
    if isSyntaxChar c then '\\' :: c :: escapeBody cs
    else if opensPair c cs.head? then c :: '\\' :: escapeBody cs
    else c :: escapeBody cs

/-- Characters that are syntax at the start of a line. -/
def startsSyntax (c : Char) : Bool :=
  c == '*' || c == '+' || c == '-' || c == '='

/-- A text that reads as itself. -/
def escapeChars (cs : List Char) : List Char :=
  let body := escapeBody cs
  if body.head?.any startsSyntax then '\\' :: body else body

def escape (s : String) : String :=
  Text.onChars escapeChars s

end StoryFlow.Ink
