import StoryFlow.Json.Mend.Text

/-! # Mending a document

The parts of a document are mended in turn: missing commas, colons, values and brackets are put in,
and last commas, ellipses and surplus brackets are left out. Every part but the last ends behind
its start, which bounds the recursion by the length of the text.
-/

namespace StoryFlow.Json.Mend

abbrev MendM := StateT Cursor (Except Defect)

def fail {α : Type} (cause : Cause) : MendM α := do
  throw ⟨cause, (← get).position⟩

def rest : MendM (List Char) :=
  return (← get).rest

def gap : MendM Unit :=
  modify (·.gap true)

/-- Copies a character if it comes next. -/
def copy (ch : Char) : MendM Bool := do
  if (← rest).head? = some ch then
    modify fun c => (c.skip 1).write [ch]
    return true
  else return false

/-- Passes a character if it comes next. -/
def pass (ch : Char) : MendM Bool := do
  if (← rest).head? = some ch then
    modify (·.skip 1)
    return true
  else return false

/-- Copies a character, or inserts it when it is missing. -/
def copyOrInsert (ch : Char) : MendM Unit := do
  unless ← copy ch do modify (·.insert [ch])

/-- Takes what was found at the head of the rest, and writes its strict form. -/
def taken (found : List Char → Option (List Char × Nat)) : MendM Bool := do
  match found (← rest) with
  | some (written, length) =>
    modify fun c => (c.skip length).write written
    return true
  | none => return false

/-- Three dots and a comma are left out. -/
def ellipsis : MendM Unit := do
  gap
  if "...".toList.isPrefixOf (← rest) then
    modify (·.skip 3)
    gap
    discard (pass ',')

/-- A pattern between slashes becomes a text. -/
def pattern? : List Char → Option (List Char × Nat)
  | '/' :: cs =>
    let length := patternLength '/' cs + 1
    some (quoted (String.ofList (('/' :: cs).take length)), length)
  | _ => none

/-- Takes back the quote at the end of what is written, and all behind it. -/
def reopened (written : List Char) : List Char :=
  (written.dropWhile (· ≠ '"')).drop 1

/-- Takes back the quote at the start of what was written after `before`. -/
def withoutFirst (before written : List Char) : List Char :=
  (written.take (written.length - before.length)).dropLast ++ before

/-- Does a word call a function? What stands between it and the argument is counted. -/
def callLength? (cs : List Char) : Option Nat :=
  if cs.head?.any isWordStart then
    let name := (cs.takeWhile isWordPart).length
    let blanks := ((cs.drop name).takeWhile isSpace).length
    if (cs.drop (name + blanks)).head? = some '(' then some (name + blanks + 1) else none
  else none

mutual

/-- A text in quotes, and those that are joined to it. -/
def quotedText : Nat → Mode → MendM Bool
  | 0, _ => return false
  | n + 1, mode => do
    let isEscaped ← pass '\\'
    let c ← get
    match c.rest with
    | [] => return false
    | q :: cs =>
      if !isQuote q then return false
      let r : Reading := ⟨q, mode, isEscaped, c.written⟩
      match r.scan 0 false 1 (q :: c.passed) ['"'] cs with
      | .closed c => set c; gap; joinedTexts n; return true
      | .cut c => set c; return true
      | .again mode => quotedText n mode
      | .faulty d => throw d

/-- Texts after plus signs go on with the text before. -/
def joinedTexts : Nat → MendM Unit
  | 0 => return
  | n + 1 => do
    if ← pass '+' then
      gap
      modify fun c => { c with written := reopened c.written }
      let before := (← get).written
      if ← quotedText n ⟨false, none⟩ then
        modify fun c => { c with written := withoutFirst before c.written }
      else modify (·.insert ['"'])
      joinedTexts n

/-- A text without quotes. A call stands for its argument. -/
def bare : Nat → Bool → MendM Bool
  | 0, _ => return false
  | n + 1, isKey => do
    let cs ← rest
    match callLength? cs with
    | some length =>
      modify (·.skip length)
      discard (value n)
      if ← pass ')' then discard (pass ';')
      return true
    | none =>
      if bareLength isKey cs = 0 then return false
      let text := bareText isKey cs
      modify fun c => (c.skip text.length).write (writtenBare text)
      discard (pass '"')
      return true

def value : Nat → MendM Bool
  | 0 => return false
  | n + 1 => do
    gap
    let found ← object n <||> array n <||> quotedText n ⟨false, none⟩ <||> taken number? <||>
      taken keyword? <||> bare n false <||> taken pattern?
    gap
    return found

def object : Nat → MendM Bool
  | 0 => return false
  | n + 1 => do
    if ← copy '\x7b' then
      gap
      if ← pass ',' then gap
      fields n true
      copyOrInsert '\x7d'
      return true
    else return false

/-- The fields of an object up to its end. A comma that no field follows is taken back. -/
def fields : Nat → Bool → MendM Unit
  | 0, _ => return
  | n + 1, isFirst => do
    let cs ← rest
    unless cs.isEmpty || cs.head? = some '\x7d' do
      unless isFirst do
        copyOrInsert ','
        gap
      ellipsis
      if ← quotedText n ⟨false, none⟩ <||> bare n true then
        fieldValue n
        fields n false
      else if (← rest).head?.all fun c => "\x7b\x7d[]".toList.contains c then
        unless isFirst do modify Cursor.dropComma
      else fail .keyExpected

/-- The colon and the value of a field. -/
def fieldValue : Nat → MendM Unit
  | 0 => return
  | n + 1 => do
    gap
    let hasColon ← copy ':'
    let cs ← rest
    unless hasColon do
      if cs.isEmpty || startsValue cs then modify (·.insert [':']) else fail .colonExpected
    unless ← value n do
      if hasColon || cs.isEmpty then modify (·.write "null".toList) else fail .colonExpected

def array : Nat → MendM Bool
  | 0 => return false
  | n + 1 => do
    if ← copy '[' then
      gap
      if ← pass ',' then gap
      elements n true
      copyOrInsert ']'
      return true
    else return false

/-- The elements of an array up to its end. A comma that no element follows is taken back. -/
def elements : Nat → Bool → MendM Unit
  | 0, _ => return
  | n + 1, isFirst => do
    let cs ← rest
    unless cs.isEmpty || cs.head? = some ']' do
      unless isFirst do copyOrInsert ','
      ellipsis
      if ← value n then elements n false
      else unless isFirst do modify Cursor.dropComma

end

/-- Values on lines of their own, as many as follow. -/
def moreValues (fuel : Nat) : Nat → MendM Unit
  | 0 => return
  | n + 1 => do
    if ← value fuel then
      copyOrInsert ','
      moreValues fuel n
    else modify Cursor.dropComma

/-- Does what is written end with a comma or a line feed, up to blanks? -/
def endsLine (written : List Char) : Bool :=
  ((written.dropWhile fun c => c == ' ' || c == '\t' || c == '\r').head?).any fun c =>
    c == ',' || c == '\n'

/-- Brackets behind the document are left out. -/
def surplus : Nat → MendM Unit
  | 0 => return
  | n + 1 => do
    if ← pass '\x7d' <||> pass ']' then
      gap
      surplus n

/-- A whole document. Several values on lines of their own become an array. -/
def document (fuel : Nat) : MendM Unit := do
  let hasComma ← copy ','
  if hasComma then gap
  if startsValue (← rest) && endsLine (← get).written then
    unless hasComma do modify (·.insert [','])
    moreValues fuel fuel
    modify fun c =>
      { c with written := "\n]".toList.reverse ++ c.written ++ "[\n".toList.reverse }
  else if hasComma then modify Cursor.dropComma
  surplus fuel
  match ← rest with
  | [] => return
  | c :: _ => fail (.unexpectedCharacter c)

/-- The strict text of a document that was edited by hand. -/
def text (s : String) : Except Defect String := do
  let fuel := 8 * (s.length + 8)
  let (found, c) ← (value fuel).run (Cursor.ofText s.toList)
  if !found then throw ⟨.unexpectedEnd, (Text.units s).length⟩
  let (_, c) ← (document fuel).run c
  return String.ofList c.written.reverse

/-- Why a document that was edited by hand cannot be read. -/
inductive ReadError where
  | unmended (d : Defect)
  /-- A mended text may still hold a number that is none. -/
  | notStrict
deriving DecidableEq

def ReadError.message : ReadError → String
  | unmended d => d.message
  | notStrict => "Unexpected token in json string"

end StoryFlow.Json.Mend

namespace StoryFlow.Json

/-- Reads a document that was edited by hand. -/
def readMended (s : String) : Except Mend.ReadError Json :=
  match Mend.text s with
  | .error d => .error (.unmended d)
  | .ok strict =>
    match read? strict with
    | none => .error .notStrict
    | some j => .ok j

end StoryFlow.Json
