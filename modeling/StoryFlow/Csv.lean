import StoryFlow.Number.Shortest

/-! # Comma-separated tables

Fields are separated by commas and records by line feeds. A field that holds a comma, a quote or a
line end is quoted, with its quotes doubled.
-/

namespace StoryFlow.Csv

inductive Field where
  | blank
  | text (s : String)
  | number (n : Number)
  | flag (b : Bool)
deriving DecidableEq

/-- The characters that force quotes. -/
def isSpecial (c : Char) : Bool :=
  c == ',' || c == '"' || c == '\n' || c == '\r'

def doubleQuotes (cs : List Char) : List Char :=
  cs.flatMap (fun c => if c = '"' then ['"', '"'] else [c])

def textChars (cs : List Char) : List Char :=
  if cs.any isSpecial then '"' :: (doubleQuotes cs ++ ['"']) else cs

/-- The text of a field before it is quoted. -/
def Field.plain : Field → List Char
  | .blank => []
  | .text s => s.toList
  | .number n => n.chars
  | .flag b => (if b then "true" else "false").toList

def Field.chars : Field → List Char
  | .text s => textChars s.toList
  | f => f.plain

def rowChars (row : List Field) : List Char :=
  [','].intercalate (row.map Field.chars)

/-- The header row and the data rows. -/
def tableChars (header : List String) (rows : List (List Field)) : List Char :=
  ['\n'].intercalate (rowChars (header.map .text) :: rows.map rowChars)

def Field.write (f : Field) : String :=
  String.ofList f.chars

def write (header : List String) (rows : List (List Field)) : String :=
  String.ofList (tableChars header rows)

/-- A count as a field. -/
def Field.ofNat (n : Nat) : Field :=
  .number (Number.ofNat n)

end StoryFlow.Csv
