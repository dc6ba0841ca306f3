import StoryFlow.Json.Basic
import StoryFlow.Number.Shortest

/-! # Printing documents

Two layouts of the same text: one without any blanks and one with a line per field or element,
two spaces deep. Numbers that are not finite are written as `null`.
-/

namespace StoryFlow.Json

def hexDigit (n : Nat) : Char :=
  (Nat.digitChar (n % 16))

/-- A character inside a quoted text. -/
def escapeChar (c : Char) : List Char :=
  if c = '"' then ['\\', '"']
  else if c = '\\' then ['\\', '\\']
  else if c = '\n' then ['\\', 'n']
  else if c = '\r' then ['\\', 'r']
  else if c = '\t' then ['\\', 't']
  else if c.toNat = 8 then ['\\', 'b']
  else if c.toNat = 12 then ['\\', 'f']
  else if c.toNat < 32 then ['\\', 'u', '0', '0', hexDigit (c.toNat / 16), hexDigit c.toNat]
  else [c]

def quoted (s : String) : List Char :=
  '"' :: (s.toList.flatMap escapeChar ++ ['"'])

def scalarNumber (n : Number) : List Char :=
  if n.isFinite then n.chars else "null".toList

mutual

/-- The layout without blanks. -/
def compactChars : Json → List Char
  | null => "null".toList
  | bool b => (if b then "true" else "false").toList
  | num n => scalarNumber n
  | str s => quoted s
  | arr [] => ['[', ']']
  | arr (x :: xs) => '[' :: (compactChars x ++ compactItems xs)
  | obj [] => ['\x7b', '\x7d']
  | obj ((k, v) :: fs) => '\x7b' :: (quoted k ++ ':' :: (compactChars v ++ compactFields fs))

/-- The elements after the first one, and the closing bracket. -/
def compactItems : List Json → List Char
  | [] => [']']
  | x :: xs => ',' :: (compactChars x ++ compactItems xs)

def compactFields : List (String × Json) → List Char
  | [] => ['\x7d']
  | (k, v) :: fs => ',' :: (quoted k ++ ':' :: (compactChars v ++ compactFields fs))

end

/-- A line feed and two spaces per level. -/
def newLine (depth : Nat) : List Char :=
  '\n' :: List.replicate (2 * depth) ' '

mutual

/-- The layout with one field or element per line. -/
def prettyChars (depth : Nat) : Json → List Char
  | null => "null".toList
  | bool b => (if b then "true" else "false").toList
  | num n => scalarNumber n
  | str s => quoted s
  | arr [] => ['[', ']']
  | arr (x :: xs) =>
    '[' :: (newLine (depth + 1) ++ prettyChars (depth + 1) x ++ prettyItems depth xs)
  | obj [] => ['\x7b', '\x7d']
  | obj ((k, v) :: fs) =>
    '\x7b' :: (newLine (depth + 1) ++ quoted k ++ ':' :: ' ' :: prettyChars (depth + 1) v ++
      prettyFields depth fs)

def prettyItems (depth : Nat) : List Json → List Char
  | [] => newLine depth ++ [']']
  | x :: xs => ',' :: (newLine (depth + 1) ++ prettyChars (depth + 1) x ++ prettyItems depth xs)

def prettyFields (depth : Nat) : List (String × Json) → List Char
  | [] => newLine depth ++ ['\x7d']
  | (k, v) :: fs =>
    ',' :: (newLine (depth + 1) ++ quoted k ++ ':' :: ' ' :: prettyChars (depth + 1) v ++
      prettyFields depth fs)

end

def compact (j : Json) : String :=
  String.ofList (compactChars j)

def pretty (j : Json) : String :=
  String.ofList (prettyChars 0 j)

/-- The text of a document in the chosen layout. -/
def text (j : Json) (isPretty : Bool) : String :=
  if isPretty then j.pretty else j.compact

end StoryFlow.Json
