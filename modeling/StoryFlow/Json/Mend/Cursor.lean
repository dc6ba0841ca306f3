import StoryFlow.Json.Printer
import StoryFlow.Json.Reader
import StoryFlow.Text.Units

/-! # Mending: the place in a document

A document that was edited by hand is mended from left to right. A cursor holds what has been
passed, what is still to be read and the strict text that has been written so far. Blanks are
copied on the way, and comments are passed over.
-/

namespace StoryFlow.Json.Mend

/-- Why a document cannot be mended. -/
inductive Cause where
  | unexpectedEnd
  | unexpectedCharacter (c : Char)
  | invalidCharacter (c : Char)
  | invalidUnicode (escape : String)
  | keyExpected
  | colonExpected
deriving DecidableEq

/-- A cause and its place, counted in 16-bit units. -/
structure Defect where
  cause : Cause
  position : Nat
deriving DecidableEq

/-- The first unit of a character in quotes; half of a pair is written as an escape. -/
def quotedUnit (c : Char) : String :=
  match Text.unitsOfChar c with
  | [_] => String.ofList (quoted (String.singleton c))
  | us => "\"\\u" ++ String.ofList (Nat.toDigits 16 (us.headD 0)) ++ "\""

def Cause.message : Cause → String
  | unexpectedEnd => "Unexpected end of json string"
  | unexpectedCharacter c => "Unexpected character " ++ quotedUnit c
  | invalidCharacter c => "Invalid character " ++ quotedUnit c
  | invalidUnicode escape => "Invalid unicode character \"" ++ escape ++ "\""
  | keyExpected => "Object key expected"
  | colonExpected => "Colon expected"

def Defect.message (d : Defect) : String :=
  d.cause.message ++ " at position " ++ toString d.position

/-- What has been passed and written stands with its last character first. -/
structure Cursor where
  passed : List Char
  rest : List Char
  written : List Char

/-- Puts characters in front of the blanks at the end of what is written. -/
def beforeBlanks (cs written : List Char) : List Char :=
  let blanks := written.takeWhile isSpace
  blanks ++ cs.reverse ++ written.drop blanks.length

namespace Cursor

def ofText (text : List Char) : Cursor :=
  ⟨[], text, []⟩

def position (c : Cursor) : Nat :=
  (c.passed.flatMap Text.unitsOfChar).length

/-- Passes characters without writing them. -/
def skip (n : Nat) (c : Cursor) : Cursor :=
  { c with passed := (c.rest.take n).reverse ++ c.passed, rest := c.rest.drop n }

def write (cs : List Char) (c : Cursor) : Cursor :=
  { c with written := cs.reverse ++ c.written }

/-- Writes what is missing, in front of the last blanks. -/
def insert (cs : List Char) (c : Cursor) : Cursor :=
  { c with written := beforeBlanks cs c.written }

/-- Takes back the last comma that was written. -/
def dropComma (c : Cursor) : Cursor :=
  { c with written := c.written.erase ',' }

end Cursor

/-! ## Gaps -/

/-- Spaces of other scripts are written as plain ones. -/
def isForeignSpace (c : Char) : Bool :=
  let n := c.toNat
  n == 0xA0 || n == 0x180E || (0x2000 ≤ n && n ≤ 0x200B) || n == 0x202F || n == 0x205F ||
    n == 0x3000 || n == 0xFEFF

/-- A plain blank; line feeds count where a gap may go over lines. -/
def isPlainSpace (lines : Bool) (c : Char) : Bool :=
  isSpace c && (lines || c ≠ '\n')

def startsBlank (lines : Bool) (cs : List Char) : Bool :=
  cs.head?.any fun c => isPlainSpace lines c || isForeignSpace c

/-- Copies the blanks at the head of a text. -/
def copyBlanks (lines : Bool) (passed written : List Char) : List Char → Cursor
  | [] => ⟨passed, [], written⟩
  | c :: cs =>
    if isPlainSpace lines c then copyBlanks lines (c :: passed) (c :: written) cs
    else if isForeignSpace c then copyBlanks lines (c :: passed) (' ' :: written) cs
    else ⟨passed, c :: cs, written⟩

def Cursor.blanks (lines : Bool) (c : Cursor) : Cursor :=
  copyBlanks lines c.passed c.written c.rest

/-- The length of a block comment after its slash. The star that opens it may close it too. -/
def blockLength : List Char → Nat
  | [] => 0
  | [_] => 1
  | c :: d :: cs => if c = '*' ∧ d = '/' then 2 else blockLength (d :: cs) + 1

/-- The length of the comment at the head of a text, zero for none. -/
def commentLength : List Char → Nat
  | '/' :: '*' :: cs => blockLength ('*' :: cs) + 1
  | '/' :: '/' :: cs => (cs.takeWhile (· ≠ '\n')).length + 2
  | _ => 0

/-- Passes over comments. Blanks after one are copied, and without any no other comment follows. -/
def passComments (lines : Bool) : Nat → Cursor → Cursor
  | 0, c => c
  | n + 1, c =>
    match commentLength c.rest with
    | 0 => c
    | length + 1 =>
      let c := c.skip (length + 1)
      if startsBlank lines c.rest then passComments lines n (c.blanks lines) else c

/-- Passes the gap between two parts of a document. -/
def Cursor.gap (lines : Bool) (c : Cursor) : Cursor :=
  let c := c.blanks lines
  if commentLength c.rest = 0 then c else passComments lines c.rest.length c

end StoryFlow.Json.Mend
