import StoryFlow.Text.Blank
import StoryFlow.Text.BaseLetter

/-! # Slugs and identifiers

A slug is a lower-case ASCII name with single underscores between its words. An identifier
keeps case, turns dots, hyphens and blanks into underscores and drops the rest.
-/

namespace StoryFlow.Text

/-- A lower-case ASCII letter or a digit. -/
def isSlugChar (c : Char) : Bool :=
  c.isLower || c.isDigit

/-- The maximal runs of slug characters. -/
def slugWords : List Char → List (List Char)
  | [] => []
  | c :: cs =>
    if isSlugChar c then
      match cs with
      | [] => [[c]]
      | d :: _ =>
        if isSlugChar d then
          match slugWords cs with
          | [] => [[c]]
          | w :: ws => (c :: w) :: ws
        else [c] :: slugWords cs
    else slugWords cs

/-- The words of a label, transliterated and in lower case, joined by underscores. -/
def slug (cs : List Char) : List Char :=
  ['_'].intercalate (slugWords ((transliterate cs).map Char.toLower))

/-- What a character contributes to an identifier. -/
def identifierChar (c : Char) : List Char :=
  if c == '.' || c == '-' || isBlank c then ['_'] else if isWordChar c then [c] else []

def identifierChars (cs : List Char) : List Char :=
  (transliterate cs).flatMap identifierChar

def slugify (s : String) : String :=
  onChars slug s

/-- The identifier of a dotted name. -/
def identifier (s : String) : String :=
  onChars identifierChars s

/-- Does the name start with a digit? -/
def leadsWithDigit (s : String) : Bool :=
  s.toList.head?.any Char.isDigit

/-- Puts the guard in front of a name that starts with a digit. -/
def guardDigit (guard s : String) : String :=
  if leadsWithDigit s then guard ++ s else s

end StoryFlow.Text
