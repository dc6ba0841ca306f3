import StoryFlow.Text.Replace

/-! # Plain text of rich text

Rich text marks paragraphs and line breaks with tags and writes some characters as entities.
`Markup.strip` keeps the words: breaks become line feeds, the other tags go, entities become
their characters, and the ends are trimmed.
-/

namespace StoryFlow.Markup

open Text

/-- A line break tag, with blanks and a slash allowed before its end. -/
def breakTag : List Char → Nat
  | '<' :: 'b' :: 'r' :: cs =>
    let gap := (cs.takeWhile isBlank).length
    match cs.drop gap with
    | '>' :: _ => gap + 4
    | '/' :: '>' :: _ => gap + 5
    | _ => 0
  | _ => 0

/-- The end of a paragraph, blanks, and the start of the next one. -/
def paragraphBreak : List Char → Nat
  | '<' :: '/' :: 'p' :: '>' :: cs =>
    let gap := (cs.takeWhile isBlank).length
    match cs.drop gap with
    | '<' :: 'p' :: '>' :: _ => gap + 7
    | _ => 0
  | _ => 0

/-- Any tag: a bracket, at least one other character than the closing bracket, and that bracket. -/
def anyTag : List Char → Nat
  | '<' :: cs =>
    let inner := (cs.takeWhile (· != '>')).length
    if inner = 0 ∨ inner = cs.length then 0 else inner + 2
  | _ => 0

/-- The entities in the order in which they are read; the ampersand comes first, so a written
ampersand can complete a later one. -/
def entities : List (List Char × Char) :=
  [("&amp;".toList, '&'), ("&lt;".toList, '<'), ("&gt;".toList, '>'), ("&quot;".toList, '"'),
   ("&#39;".toList, '\''), ("&nbsp;".toList, ' ')]

def readEntities (cs : List Char) : List Char :=
  entities.foldl (fun text e => substitute (literal e.1) [e.2] text) cs

def stripTags (cs : List Char) : List Char :=
  substitute anyTag [] (substitute paragraphBreak ['\n'] (substitute breakTag ['\n'] cs))

def stripChars (cs : List Char) : List Char :=
  trim (readEntities (stripTags cs))

/-- The plain text of a rich text. -/
def strip (s : String) : String :=
  onChars stripChars s

/-- The plain text of a rich text that may be missing. -/
def strip? (s : Option String) : String :=
  s.elim "" strip

end StoryFlow.Markup
