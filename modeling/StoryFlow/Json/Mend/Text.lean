import StoryFlow.Json.Mend.Cursor

/-! # Mending: texts and numbers

A text should end with a quote that is followed by the end, a delimiter or another value. When the
quote turns out to be none, it becomes part of the text; when the end is missing, the text is read
again and ends before the first delimiter. Words without quotes are texts as well.
-/

namespace StoryFlow.Json.Mend

/-! ## Characters -/

def isDelimiter (c : Char) : Bool :=
  ",:[]/\x7b\x7d()\n+".toList.contains c

/-- The delimiters that end a text without quotes. -/
def endsBare (c : Char) : Bool :=
  ",[]/\x7b\x7d\n".toList.contains c

/-- The delimiters that end a text whose quote is missing: another text may be joined to it. -/
def endsCut (c : Char) : Bool :=
  endsBare c || c == '+'

def isDoubleQuote (c : Char) : Bool :=
  c == '"' || c == '\u201c' || c == '\u201d'

def isSingleQuote (c : Char) : Bool :=
  c == '\'' || c == '\u2018' || c == '\u2019' || c == '\x60' || c == '\u00b4'

def isQuote (c : Char) : Bool :=
  isDoubleQuote c || isSingleQuote c

/-- The quotes that end a text: a plain quote wants its like, a typographic one any of its kind. -/
def endsQuote (opening : Char) (c : Char) : Bool :=
  if opening = '"' ∨ opening = '\'' then c == opening
  else if isSingleQuote opening then isSingleQuote c
  else isDoubleQuote c

def isWordStart (c : Char) : Bool :=
  c.isAlpha || c == '_' || c == '$'

def isWordPart (c : Char) : Bool :=
  isWordStart c || c.isDigit

/-- Does a value start here? -/
def startsValue (cs : List Char) : Bool :=
  cs.head?.any fun c =>
    isQuote c || c.isAlphanum || c == '_' || c == '-' || c == '[' || c == '\x7b'

/-! ## Addresses -/

/-- The heads of web addresses, whose slashes are no delimiters. -/
def addressHeads : List (List Char) :=
  ["http://", "https://", "ftp://", "mailto://", "file://", "data://", "irc://"].map String.toList

def isAddressChar (c : Char) : Bool :=
  c.isAlphanum || "-._~:/?#@!$&'()*+;=".toList.contains c

/-- The length of the address that goes on at the first slash after the given head. -/
def addressLength (head rest : List Char) : Nat :=
  if addressHeads.contains (head ++ rest.take 2) then (rest.takeWhile isAddressChar).length else 0

/-! ## Texts in quotes -/

/-- Where a text may end besides at its quote: before a delimiter, or at an offset. -/
structure Mode where
  atDelimiter : Bool
  limit : Option Nat
deriving DecidableEq

/-- One reading of a text in quotes. -/
structure Reading where
  opening : Char
  mode : Mode
  /-- Does a backslash stand before every quote? -/
  isEscaped : Bool
  /-- What was written before the text. -/
  written : List Char

/-- How a reading ends: with a text to which others may be joined, with one that is cut off, with
the wish to read again, or with a defect. -/
inductive Reached where
  | closed (c : Cursor)
  | cut (c : Cursor)
  | again (mode : Mode)
  | faulty (d : Defect)

/-- Does a text hold more brackets that open than brackets that close, of the kind of the one that
follows it? -/
def leavesOpen (content : List Char) (closing : Char) : Bool :=
  (closing == '\x7d' && content.count '\x7d' < content.count '\x7b') ||
    (closing == ']' && content.count ']' < content.count '[')

/-- May a text end where this follows? A bracket that the text itself leaves open does not end it. -/
def closesHere (content rest : List Char) : Bool :=
  match rest with
  | [] => true
  | c :: _ => !leavesOpen content c && (isDelimiter c || isQuote c || c.isDigit)

/-- The text of a content that stops without its quote. -/
def Reading.stopped (r : Reading) (passed content rest : List Char) : Cursor :=
  ⟨passed, rest, beforeBlanks ['"'] content ++ r.written⟩

/-- The end of the document inside a text. -/
def Reading.atEnd (r : Reading) (passed content : List Char) : Reached :=
  if !r.mode.atDelimiter && (passed.dropWhile isSpace).head?.any isDelimiter then
    .again ⟨true, none⟩
  else .cut (r.stopped passed content [])

/-- What a quote inside a text is. -/
inductive Quote where
  | closing (c : Cursor)
  | missed (mode : Mode)
  | inner

/-- Looks at what stands around a quote. A comma or a delimiter before one that closes nothing
shows that the text should have ended there. -/
def Reading.quote (r : Reading) (offset : Nat) (passed content : List Char) (q : Char)
    (rest : List Char) : Quote :=
  let after := Cursor.gap false ⟨q :: passed, rest, '"' :: (content ++ r.written)⟩
  if r.mode.atDelimiter || closesHere content after.rest then .closing after
  else
    let blanks := (passed.takeWhile isSpace).length
    match passed.drop blanks with
    | ',' :: _ => .missed ⟨false, some (offset - blanks - 1)⟩
    | c :: _ => if isDelimiter c then .missed ⟨true, none⟩ else .inner
    | [] => .inner

/-- The escape at a backslash: what it becomes and its length. -/
def escapeAt (cs : List Char) : Option (List Char × Nat) :=
  match cs with
  | [] => some ([], 1)
  | c :: cs =>
    if "\"\\/bfnrt".toList.contains c then some (['\\', c], 2)
    else if c = 'u' then
      let digits := (cs.takeWhile fun d => (hexValue? d).isSome).take 4
      if digits.length = 4 then some ('\\' :: 'u' :: digits, 6)
      else if (cs.drop digits.length).isEmpty then some ([], digits.length + 2)
      else none
    else some ([c], 2)

/-- What stands for a character in a strict text; control characters without a short escape have
nothing. -/
def plainChar (c : Char) : Option (List Char) :=
  if c = '"' then some ['\\', c]
  else if c.toNat = 8 ∨ c.toNat = 12 ∨ c = '\n' ∨ c = '\r' ∨ c = '\t' then some (escapeChar c)
  else if c.toNat < 32 then none
  else some [c]

/-- Reads on inside a text. `skip` counts the characters of an escape that are still to be passed,
and `drop` says that a backslash is dropped if it comes next. -/
def Reading.scan (r : Reading) :
    Nat → Bool → Nat → List Char → List Char → List Char → Reached
  | _, _, _, passed, content, [] => r.atEnd passed content
  | skip + 1, drop, offset, passed, content, c :: cs =>
    r.scan skip drop (offset + 1) (c :: passed) content cs
  | 0, drop, offset, passed, content, c :: cs =>
    if drop ∧ c = '\\' then r.scan 0 false (offset + 1) (c :: passed) content cs
    else if r.mode.limit = some offset then .cut (r.stopped passed content (c :: cs))
    else if endsQuote r.opening c then
      match r.quote offset passed content c cs with
      | .closing after => .closed after
      | .missed mode => .again mode
      | .inner =>
        r.scan 0 r.isEscaped (offset + 1) (c :: passed) ('"' :: '\\' :: content) cs
    else if r.mode.atDelimiter && endsCut c then
      let length :=
        if passed.head? = some ':' then
          addressLength (passed.take (offset - 1)).reverse (c :: cs)
        else 0
      let address := (c :: cs).take length
      .closed (r.stopped (address.reverse ++ passed) (address.reverse ++ content)
        ((c :: cs).drop length))
    else if c = '\\' then
      match escapeAt cs with
      | some (written, length) =>
        r.scan (length - 1) r.isEscaped (offset + 1) (c :: passed) (written.reverse ++ content) cs
      | none =>
        .faulty ⟨.invalidUnicode (String.ofList ((c :: cs).take 6)),
          Cursor.position ⟨passed, [], []⟩⟩
    else
      match plainChar c with
      | some written =>
        r.scan 0 r.isEscaped (offset + 1) (c :: passed) (written.reverse ++ content) cs
      | none => .faulty ⟨.invalidCharacter c, Cursor.position ⟨passed, [], []⟩⟩

/-! ## Numbers and words -/

/-- Does a number end here? -/
def endsNumber (cs : List Char) : Bool :=
  cs.head?.all fun c => isDelimiter c || isSpace c

/-- The length of the digits after a sign, a point or an exponent mark; `true` says that the number
ends without any. -/
def digitsAfter (cs : List Char) : Option (Bool × Nat) :=
  if endsNumber cs then some (true, 0)
  else if cs.head?.any Char.isDigit then some (false, (cs.takeWhile Char.isDigit).length)
  else none

/-- The length of a part of a number that starts with a mark. -/
def markedPart (mark : Nat) (cs : List Char) : Option (Bool × Nat) :=
  (digitsAfter (cs.drop mark)).map fun (isCut, length) => (isCut, mark + length)

/-- The digits before the point, with their sign. There is one at least, or none but the sign. -/
def wholePart (cs : List Char) : Option (Bool × Nat) :=
  if cs.head? = some '-' then markedPart 1 cs
  else if cs.head?.any Char.isDigit then some (false, (cs.takeWhile Char.isDigit).length)
  else none

def fractionPart (cs : List Char) : Option (Bool × Nat) :=
  if cs.head? = some '.' then markedPart 1 cs else some (false, 0)

def powerPart (cs : List Char) : Option (Bool × Nat) :=
  if cs.head? = some 'e' ∨ cs.head? = some 'E' then
    let hasSign := (cs.drop 1).head?.any fun c => c == '+' || c == '-'
    markedPart (if hasSign then 2 else 1) cs
  else some (false, 0)

/-- The length of the parts of a number in turn; a part without digits is the last one. -/
def numberParts (cs : List Char) : Option (Bool × Nat) := do
  let (isCut, whole) ← wholePart cs
  if isCut then some (true, whole)
  else
    let rest := cs.drop whole
    let (isCut, fraction) ← fractionPart rest
    if isCut then some (true, whole + fraction)
    else
      let (isCut, power) ← powerPart (rest.drop fraction)
      some (isCut, whole + fraction + power)

def hasLeadingZero : List Char → Bool
  | '-' :: '0' :: d :: _ | '0' :: d :: _ => d.isDigit
  | _ => false

/-- A number at the head of a text: what is written for it, and its length. One that breaks off
gets a zero, and one with leading zeros is a text. -/
def number? (cs : List Char) : Option (List Char × Nat) := do
  let (isCut, length) ← numberParts cs
  let text := cs.take length
  if isCut then some (text ++ ['0'], length)
  else if !endsNumber (cs.drop length) then none
  else some (if hasLeadingZero text then '"' :: (text ++ ['"']) else text, length)

/-- Words that stand for values, with the strict words. -/
def keywords : List (String × String) :=
  [("true", "true"), ("false", "false"), ("null", "null"), ("True", "true"), ("False", "false"),
    ("None", "null")]

/-- Is a word the whole word at the head of a text? -/
def isWordAt (word cs : List Char) : Bool :=
  word.isPrefixOf cs && !(cs.drop word.length).head?.any isWordPart

/-- A keyword at the head of a text: what is written for it, and its length. A longer word that
starts like one is a text. -/
def keyword? (cs : List Char) : Option (List Char × Nat) :=
  (keywords.find? fun k => isWordAt k.1.toList cs).map fun k => (k.2.toList, k.1.length)

/-- The length of a text without quotes; a key also ends before a colon. -/
def bareLength (isKey : Bool) (cs : List Char) : Nat :=
  let length := (cs.takeWhile fun c => !endsBare c && !isQuote c && !(isKey && c == ':')).length
  let head := cs.take length
  let more := if head.getLast? = some ':' then addressLength head (cs.drop length) else 0
  length + more

/-- A text without quotes and without the blanks at its end. -/
def bareText (isKey : Bool) (cs : List Char) : List Char :=
  ((cs.take (bareLength isKey cs)).reverse.dropWhile isSpace).reverse

/-- What is written for a text without quotes. -/
def writtenBare (text : List Char) : List Char :=
  if text = "undefined".toList then "null".toList else quoted (String.ofList text)

/-- The length of a pattern between slashes, after the first one. -/
def patternLength : Char → List Char → Nat
  | _, [] => 1
  | before, c :: cs => if c = '/' ∧ before ≠ '\\' then 1 else patternLength c cs + 1

end StoryFlow.Json.Mend
