import StoryFlow.Lint.Scan

/-! # Checking an Ink script

Knots, stitches and variables have names that do not start with a digit, and the first and the
last of them are defined once. Conditional blocks open and close on lines of their own, with
branches between them of which `else` is the last. Braces pair up on every other line, and
brackets belong to choices.
-/

namespace StoryFlow.Lint.Ink
open Text

/-- The name between the equals signs of a header, with blanks around it. -/
def headerName (cs : List Char) : List Char × List Char :=
  let rest := trimStart cs
  let name := rest.takeWhile fun c => c ≠ '=' && !isBlank c
  (name, trimStart (rest.drop name.length))

/-- The name of a knot header, whose closing equals signs may be missing. -/
def knot? : List Char → Option (List Char)
  | '=' :: '=' :: '=' :: cs =>
    match headerName cs with
    | (name, '=' :: '=' :: '=' :: rest) => if (trimStart rest).isEmpty then some name else none
    | (name, rest) => if rest.isEmpty then some name else none
  | _ => none

/-- The name of a stitch header. -/
def stitch? : List Char → Option (List Char)
  | '=' :: cs =>
    match headerName cs with
    | (name, []) => some name
    | _ => none
  | _ => none

/-- The name and the value of a declaration. -/
def var? : List Char → Option (List Char × List Char)
  | 'V' :: 'A' :: 'R' :: cs =>
    let rest := trimStart cs
    let name := rest.takeWhile isWordChar
    match trimStart (rest.drop name.length) with
    | '=' :: value =>
      let value := trimStart value
      if rest.length = cs.length ∨ name.isEmpty ∨ value.any isLineEnd then none
      else some (name, value)
    | _ => none
  | _ => none

/-- The text of a branch: what stands between a dash and the colon at the end of the line. -/
def branch? : List Char → Option (List Char)
  | '-' :: cs =>
    match cs.reverse with
    | ':' :: c :: middle =>
      let text := trimStart (c :: middle).reverse
      if text.any isLineEnd ∨ (text.isEmpty ∧ isLineEnd c) then none else some (trimEnd text)
    | _ => none
  | _ => none

/-- Does a line open a conditional block? It holds one brace, or ends before the first branch. -/
def opensBlock (text : List Char) : Bool :=
  text == ['\x7b'] ||
    (text.head? == some '\x7b' && text.getLast? == some ':' && countUnescaped '\x7d' text == 0)

/-- What a line is. -/
inductive Kind where
  | blank
  | knot (name : List Char)
  | stitch (name : List Char)
  | var (name value : List Char)
  | opening
  | closing
  | branch (text : List Char)
  | content
deriving DecidableEq

def Kind.ofLine (text : List Char) : Kind :=
  if text.isEmpty || "//".toList.isPrefixOf text then blank
  else match knot? text, stitch? text, var? text with
  | some name, _, _ => knot name
  | none, some name, _ => stitch name
  | none, none, some (name, value) => var name value
  | none, none, none =>
    if opensBlock text then opening
    else if text = ['\x7d'] then closing
    else if "->".toList.isPrefixOf text then content
    else (branch? text).elim content branch

/-- A branch of an open block, with its line. -/
structure Branch where
  text : List Char
  line : Nat
deriving DecidableEq

/-- A conditional block that is open, with its branches so far. -/
structure Block where
  line : Nat
  branches : List Branch
deriving DecidableEq

/-- The issues of a branch; `last` says that no other follows it. -/
def branchIssues (b : Branch) (last : Bool) : List Issue :=
  (if b.text = "else".toList ∧ !last then [Problem.earlyElse.at b.line] else []) ++
    if ["True".toList, "False".toList].contains b.text then
      [(Problem.boolWord (String.ofList b.text)).at b.line]
    else []

def branchesIssues : List Branch → List Issue
  | [] => []
  | b :: bs => branchIssues b bs.isEmpty ++ branchesIssues bs

/-- The issues of a block that closes. -/
def blockIssues (b : Block) : List Issue :=
  let elses := b.branches.filter (·.text = "else".toList)
  branchesIssues b.branches ++
    match elses with
    | _ :: second :: _ => [(Problem.manyElse b.line elses.length).at second.line]
    | _ => []

/-- The targets that end a story are no names. -/
def endings : List (List Char) :=
  ["END".toList, "DONE".toList]

/-- The issues of the diverts in a line. -/
def divertIssues (line : Nat) (text : List Char) : List Issue :=
  (divert.all text).flatMap fun target =>
    if !endings.contains target && (pieces '.' target).any startsWithDigit then
      [(Problem.leadingDigit .divert (String.ofList target)).at line]
    else []

/-- The heads of lines whose brackets are no text. -/
def logicHeads : List (List Char) :=
  ["VAR ".toList, "INCLUDE ".toList, ['='], ['~'], ['#'], ['-'], ['\x7b'], ['\x7d']]

/-- The issue of brackets in a line: a choice may hold one pair, a text none. -/
def bracketIssues (line : Nat) (text : List Char) : List Issue :=
  let opening := countUnescaped '[' text
  let closing := countUnescaped ']' text
  if text.head? ∈ [some '*', some '+'] then
    if opening > 1 || closing > 1 then [Problem.choiceBracket.at line] else []
  else if !logicHeads.any (·.isPrefixOf text) && (opening > 0 || closing > 0) then
    [Problem.textBracket.at line]
  else []

/-- The issues of a line of content. -/
def contentIssues (line : Nat) (text : List Char) : List Issue :=
  (if countUnescaped '\x7b' text ≠ countUnescaped '\x7d' text then
      [Problem.unevenBraces.at line] else []) ++
    ((inline.all text).filter hasNullWord).map
      (fun e => (Problem.nullWord .inline (String.ofList e)).at line) ++
    bracketIssues line text

/-- The state of a walk: where names were defined, and the open blocks, innermost first. -/
structure State where
  vars : List (String × Nat)
  knots : List (String × Nat)
  blocks : List Block
deriving DecidableEq

def State.initial : State :=
  ⟨[], [], []⟩

def knotStep (s : State) (line : Nat) (name : List Char) : List Issue × State :=
  if name.isEmpty then ([Problem.unnamedKnot.at line], s)
  else
    let defining := define .knotTwice (String.ofList name) line s.knots
    (digitIssues .knot line name ++ defining.1, { s with knots := defining.2 })

def varStep (s : State) (line : Nat) (name value : List Char) : List Issue × State :=
  let defining := define .varTwice (String.ofList name) line s.vars
  let nulls :=
    if hasNullWord value && value.head? != some '"' then
      [(Problem.nullWord .var (String.ofList name)).at line]
    else []
  (digitIssues .var line name ++ nulls ++ defining.1, { s with vars := defining.2 })

def step (s : State) (line : Nat) (text : List Char) : List Issue × State :=
  match Kind.ofLine text with
  | .blank => ([], s)
  | .knot name => knotStep s line name
  | .stitch name =>
    (if name.isEmpty then [Problem.unnamedStitch.at line] else digitIssues .stitch line name, s)
  | .var name value => varStep s line name value
  | .opening => (divertIssues line text, { s with blocks := ⟨line, []⟩ :: s.blocks })
  | .closing =>
    match s.blocks with
    | b :: bs => (blockIssues b, { s with blocks := bs })
    | [] => ([Problem.strayBrace.at line], s)
  | .branch branch =>
    match s.blocks with
    | b :: bs =>
      (divertIssues line text,
        { s with blocks := { b with branches := b.branches ++ [⟨branch, line⟩] } :: bs })
    | [] => (divertIssues line text ++ contentIssues line text, s)
  | .content => (divertIssues line text ++ contentIssues line text, s)

/-- The issues of an Ink script. -/
def check (source : String) : List Issue :=
  let walked := walk step State.initial 1 (lines source)
  walked.1 ++ walked.2.blocks.reverse.map fun b => (Problem.unclosedBlock b.line).at b.line

/-- The names that a line defines for all the files of an export. -/
def namesOf (text : List Char) : List (NameKind × String) :=
  (((knot? text).filter (!·.isEmpty)).map fun n => (NameKind.knot, String.ofList n)).toList ++
    ((var? text).map fun v => (NameKind.var, String.ofList v.1)).toList

end StoryFlow.Lint.Ink
