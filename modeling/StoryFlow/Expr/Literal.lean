import StoryFlow.Json.Printer
import StoryFlow.Text.Blank

/-! # Literals

A value as it stands in an expression. Numbers, booleans and texts that look like them stay bare;
other texts are quoted with `\\`, `\"`, `\n` and `\r` escaped and without their NUL characters.
-/

namespace StoryFlow.Literal

def quotedChar (c : Char) : List Char :=
  if c = '\\' then ['\\', '\\']
  else if c = '"' then ['\\', '"']
  else if c = '\n' then ['\\', 'n']
  else if c = '\r' then ['\\', 'r']
  else if c.toNat = 0 then []
  else [c]

def quoteChars (cs : List Char) : List Char :=
  '"' :: (cs.flatMap quotedChar ++ ['"'])

/-- A text in quotes. -/
def quote (s : String) : String :=
  Text.onChars quoteChars s

def areDigits (cs : List Char) : Bool :=
  !cs.isEmpty && cs.all Char.isDigit

/-- Digits, optionally a point and more digits. -/
def isUnsignedNumeral (cs : List Char) : Bool :=
  match cs.dropWhile Char.isDigit with
  | [] => areDigits cs
  | c :: rest => c == '.' && areDigits (cs.takeWhile Char.isDigit) && areDigits rest

/-- Optionally a minus sign, digits, and optionally a point and more digits. -/
def isNumeral : List Char → Bool
  | '-' :: cs => isUnsignedNumeral cs
  | cs => isUnsignedNumeral cs

/-- Is the text written without quotes? -/
def isBare (s : String) : Bool :=
  s == "true" || s == "false" || isNumeral s.toList

/-- The literal of a text. -/
def ofText (s : String) : String :=
  if isBare s then s else quote s

/-- The literal of a value; a missing value is the null word, and a number that is not finite is
zero. Lists and objects become the quoted text of the document. -/
def ofJson (nullWord : String) : Option Json → String
  | none | some .null => nullWord
  | some (.bool b) => if b then "true" else "false"
  | some (.num n) => if n.isFinite then n.text else "0"
  | some (.str s) => ofText s
  | some j => quote j.compact

end StoryFlow.Literal
