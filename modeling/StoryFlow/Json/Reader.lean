import StoryFlow.Json.Basic

/-! # Reading documents

A strict reader: blanks are space, tab and the two line ends, nothing follows the value, and of
two fields with one key the last counts. The measure that bounds the recursion is the length of
the text, since every value and every element takes at least one character.
-/

namespace StoryFlow.Json

def isSpace (c : Char) : Bool :=
  c == ' ' || c == '\t' || c == '\n' || c == '\r'

def skipSpace (cs : List Char) : List Char :=
  cs.dropWhile isSpace

def hexValue? (c : Char) : Option Nat :=
  if c.isDigit then some (c.toNat - 48)
  else if 'a' ≤ c ∧ c ≤ 'f' then some (c.toNat - 87)
  else if 'A' ≤ c ∧ c ≤ 'F' then some (c.toNat - 55)
  else none

/-- Four hexadecimal digits. -/
def hexUnit? : List Char → Option (Nat × List Char)
  | a :: b :: c :: d :: cs => do
    let a ← hexValue? a
    let b ← hexValue? b
    let c ← hexValue? c
    let d ← hexValue? d
    some (((a * 16 + b) * 16 + c) * 16 + d, cs)
  | _ => none

/-- The trailing surrogate written at the head of a text. -/
def trailing? : List Char → Option (Nat × List Char)
  | '\\' :: 'u' :: cs => (hexUnit? cs).filter (fun u => 0xDC00 ≤ u.1 && u.1 ≤ 0xDFFF)
  | _ => none

/-- The character of an escape by code. A leading surrogate joins with a trailing one; a surrogate
that stands alone is no character and reads as the replacement character. -/
def codeEscape? (cs : List Char) : Option (Char × List Char) :=
  (hexUnit? cs).map fun (u, rest) =>
    if 0xD800 ≤ u ∧ u ≤ 0xDBFF then
      match trailing? rest with
      | some (v, rest) => (Char.ofNat (0x10000 + (u - 0xD800) * 0x400 + (v - 0xDC00)), rest)
      | none => (Char.ofNat 0xFFFD, rest)
    else if 0xDC00 ≤ u ∧ u ≤ 0xDFFF then (Char.ofNat 0xFFFD, rest)
    else (Char.ofNat u, rest)

/-- What stands after a backslash. -/
def escape? : List Char → Option (Char × List Char)
  | '"' :: cs => some ('"', cs)
  | '\\' :: cs => some ('\\', cs)
  | '/' :: cs => some ('/', cs)
  | 'b' :: cs => some ('\x08', cs)
  | 'f' :: cs => some ('\x0c', cs)
  | 'n' :: cs => some ('\n', cs)
  | 'r' :: cs => some ('\r', cs)
  | 't' :: cs => some ('\t', cs)
  | 'u' :: cs => codeEscape? cs
  | _ => none

/-- The characters of a quoted text up to its closing quote. -/
def readQuoted : Nat → List Char → Option (List Char × List Char)
  | 0, _ => none
  | _ + 1, [] => none
  | _ + 1, '"' :: cs => some ([], cs)
  | n + 1, '\\' :: cs => do
    let (c, rest) ← escape? cs
    let (text, rest) ← readQuoted n rest
    some (c :: text, rest)
  | n + 1, c :: cs =>
    if c.toNat < 32 then none
    else do
      let (text, rest) ← readQuoted n cs
      some (c :: text, rest)

/-- The digits at the head of a text. -/
def digitRun (cs : List Char) : List Char × List Char :=
  (cs.takeWhile Char.isDigit, cs.dropWhile Char.isDigit)

/-- Whole digits: a lone zero, or a run that does not start with zero. -/
def readWhole : List Char → Option (List Char × List Char)
  | '0' :: cs => some (['0'], cs)
  | cs => let (ds, rest) := digitRun cs; if ds = [] then none else some (ds, rest)

/-- The digits after a point, if there is one. -/
def readFraction : List Char → Option (List Char × List Char)
  | '.' :: cs => let (ds, rest) := digitRun cs; if ds = [] then none else some (ds, rest)
  | cs => some ([], cs)

/-- The digits of an exponent with a given sign. -/
def readPower (sign : Int) (cs : List Char) : Option (Int × List Char) :=
  let (ds, rest) := digitRun cs
  if ds = [] then none else some (sign * Fields.readDigits ds, rest)

def readExponent : List Char → Option (Int × List Char)
  | e :: cs =>
    if e = 'e' ∨ e = 'E' then
      match cs with
      | '-' :: cs => readPower (-1) cs
      | '+' :: cs => readPower 1 cs
      | cs => readPower 1 cs
    else some (0, e :: cs)
  | [] => some (0, [])

def readUnsigned (negative : Bool) (cs : List Char) : Option (Number × List Char) := do
  let (whole, rest) ← readWhole cs
  let (fraction, rest) ← readFraction rest
  let (power, rest) ← readExponent rest
  let digits := Fields.readDigits (whole ++ fraction)
  some (Number.ofDecimal negative digits (power - fraction.length), rest)

def readNumber : List Char → Option (Number × List Char)
  | '-' :: cs => readUnsigned true cs
  | cs => readUnsigned false cs

mutual

/-- A value at the head of a text that starts with no blank. -/
def readValue : Nat → List Char → Option (Json × List Char)
  | 0, _ => none
  | n + 1, cs =>
    match cs with
    | '"' :: cs => (readQuoted (cs.length + 1) cs).map fun (s, rest) => (str (String.ofList s), rest)
    | '[' :: cs =>
      match skipSpace cs with
      | ']' :: rest => some (arr [], rest)
      | cs => (readItems n cs).map fun (items, rest) => (arr items, rest)
    | '\x7b' :: cs =>
      match skipSpace cs with
      | '\x7d' :: rest => some (obj [], rest)
      | cs => (readFields n cs).map fun (fields, rest) => (ofFields fields, rest)
    | 't' :: 'r' :: 'u' :: 'e' :: rest => some (bool true, rest)
    | 'f' :: 'a' :: 'l' :: 's' :: 'e' :: rest => some (bool false, rest)
    | 'n' :: 'u' :: 'l' :: 'l' :: rest => some (null, rest)
    | cs => (readNumber cs).map fun (x, rest) => (num x, rest)

/-- One element and those after it, up to the closing bracket. -/
def readItems : Nat → List Char → Option (List Json × List Char)
  | 0, _ => none
  | n + 1, cs => do
    let (item, rest) ← readValue n cs
    match skipSpace rest with
    | ']' :: rest => some ([item], rest)
    | ',' :: rest =>
      let (items, rest) ← readItems n (skipSpace rest)
      some (item :: items, rest)
    | _ => none

/-- One field and those after it, up to the closing brace. -/
def readFields : Nat → List Char → Option (List (String × Json) × List Char)
  | 0, _ => none
  | n + 1, cs => do
    let '"' :: cs := cs | none
    let (key, rest) ← readQuoted (cs.length + 1) cs
    let ':' :: rest := skipSpace rest | none
    let (value, rest) ← readValue n (skipSpace rest)
    match skipSpace rest with
    | '\x7d' :: rest => some ([(String.ofList key, value)], rest)
    | ',' :: rest =>
      let (fields, rest) ← readFields n (skipSpace rest)
      some ((String.ofList key, value) :: fields, rest)
    | _ => none

end

def readChars (cs : List Char) : Option Json := do
  let (value, rest) ← readValue (cs.length + 1) (skipSpace cs)
  if skipSpace rest = [] then some value else none

/-- The value of a document text. -/
def read? (s : String) : Option Json :=
  readChars s.toList

end StoryFlow.Json
