import StoryFlow.Text.Blank

/-! # Text in Yarn

A text is written so that a reader takes it for text: syntax characters get a backslash, and so
does what would start a command or an option.
-/

namespace StoryFlow.Yarn

/-- Characters that are syntax wherever they stand. -/
def isSyntaxChar (c : Char) : Bool :=
  c == '\\' || c == '#' || c == '[' || c == ']' || c == '\x7b' || c == '\x7d'

/-- Puts a backslash before syntax characters and before each bracket of a command but the last. -/
def escapeBody : List Char → List Char
  | [] => []
  | c :: cs =>
    if isSyntaxChar c || (c == '<' && cs.head? == some '<') then '\\' :: c :: escapeBody cs
    else c :: escapeBody cs

/-- A text that reads as itself. A leading hyphen or bracket would start an option or a command. -/
def escapeChars (cs : List Char) : List Char :=
  let body := escapeBody cs
  match body with
  | '-' :: _ | '<' :: _ => '\\' :: body
  | _ => body

def escape (s : String) : String :=
  Text.onChars escapeChars s

end StoryFlow.Yarn
