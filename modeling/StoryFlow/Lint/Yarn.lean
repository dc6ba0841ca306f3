import StoryFlow.Lint.Scan

/-! # Checking a Yarn script

A script is a row of nodes, each with a header and a body. Names must not start with a digit,
commands must not use a word for the missing value, variables are declared once, and in each
body the blocks open and close in pairs, with at most one last `else` branch.
-/

namespace StoryFlow.Lint.Yarn
open Text

/-- The title that a header line gives to its node. -/
def title? (text : List Char) : Option (List Char) :=
  let word := "title:".toList
  if word.isPrefixOf text then
    let rest := trimStart (text.drop word.length)
    if rest.any isLineEnd then none else some (trimEnd rest)
  else none

/-- The variable that a line declares. -/
def declared? (text : List Char) : Option String :=
  (declaration.all text).head?.map String.ofList

/-- What a line means for the blocks of a body. -/
inductive Mark where
  | opening | elseIf | otherwise | closing
deriving DecidableEq

def Mark.ofLine? (text : List Char) : Option Mark :=
  if "<<if ".toList.isPrefixOf text then some opening
  else if "<<elseif ".toList.isPrefixOf text then some elseIf
  else if text = "<<else>>".toList then some otherwise
  else if text = "<<endif>>".toList then some closing
  else none

/-- A block that is open, with the line of its first branch. -/
structure Block where
  line : Nat
  elseSeen : Bool
deriving DecidableEq

/-- The blocks after a line, innermost first. -/
def markStep (line : Nat) (text : List Char) :
    Option Mark → List Block → List Issue × List Block
  | none, bs => ([], bs)
  | some .opening, bs => ([], ⟨line, false⟩ :: bs)
  | some .closing, [] => ([Problem.endifOutsideIf.at line], [])
  | some .closing, _ :: bs => ([], bs)
  | some _, [] => ([(Problem.branchOutsideIf (String.ofList text)).at line], [])
  | some m, b :: bs =>
    if b.elseSeen then ([(Problem.branchAfterElse b.line).at line], b :: bs)
    else ([], { b with elseSeen := m = .otherwise } :: bs)

/-- The issues of a body line that hang on nothing but the line. -/
def lineIssues (line : Nat) (text : List Char) : List Issue :=
  (command.all text ++ inline.all text).flatMap
      (fun e => (dollarName.all e).flatMap (digitIssues .dollarName line)) ++
    (jump.all text).flatMap (digitIssues .jump line) ++
    ((command.all text).filter hasNullWord).map fun c =>
      (Problem.nullWord .command (String.ofList (trim c))).at line

/-- The state of a walk. `blocks` are those open in a body, and there are none in a header;
`start` is the first line of the node, once a node has ended before it. -/
structure State where
  declared : List (String × Nat)
  start : Option Nat
  title : Option (List Char)
  blocks : Option (List Block)
deriving DecidableEq

def State.initial : State :=
  ⟨[], none, none, none⟩

/-- The blocks that a node leaves open, outermost first. -/
def openIssues (blocks : List Block) : List Issue :=
  blocks.reverse.map fun b => (Problem.unclosedIf b.line).at b.line

/-- A line of a header. -/
def headerStep (s : State) (line : Nat) (text : List Char) : List Issue × State :=
  match title? text with
  | some title => (digitIssues .title line title, { s with title := some title })
  | none =>
    if text = "---".toList then
      let issues :=
        if (s.title.getD []).isEmpty then [Problem.untitledNode.at (s.start.getD line)] else []
      (issues, { s with blocks := some [] })
    else ([], s)

/-- A line of a body in which some blocks are open. -/
def bodyStep (s : State) (blocks : List Block) (line : Nat) (text : List Char) :
    List Issue × State :=
  if text = "===".toList then
    (openIssues blocks, { s with blocks := none, title := none, start := some (line + 1) })
  else
    let declaring :=
      match declared? text with
      | some name => define .declaredTwice name line s.declared
      | none => ([], s.declared)
    let marking := markStep line text (Mark.ofLine? text) blocks
    (declaring.1 ++ lineIssues line text ++ marking.1,
      { s with declared := declaring.2, blocks := some marking.2 })

def step (s : State) (line : Nat) (text : List Char) : List Issue × State :=
  match s.blocks with
  | none => headerStep s line text
  | some blocks => bodyStep s blocks line text

/-- The issues of a last node that is not ended. -/
def endIssues (s : State) : List Issue :=
  match s.blocks with
  | none => []
  | some blocks =>
    (Problem.unendedNode (String.ofList (s.title.getD []))).at (s.start.getD 1) ::
      openIssues blocks

/-- The issues of a Yarn script. -/
def check (source : String) : List Issue :=
  let walked := walk step State.initial 1 (lines source)
  walked.1 ++ endIssues walked.2

/-- The names that a line defines for all the files of an export. -/
def namesOf (text : List Char) : List (NameKind × String) :=
  ((title? text).map fun t => (NameKind.node, String.ofList t)).toList ++
    ((declared? text).map fun name => (NameKind.declared, name)).toList

end StoryFlow.Lint.Yarn
