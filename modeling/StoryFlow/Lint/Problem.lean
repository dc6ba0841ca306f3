/-! # Problems of a script

What can be wrong in a written script. The cause of a problem decides its code, its message and
how serious it is; an issue says where the problem stands.
-/

namespace StoryFlow.Lint

/-- Where a name stands that starts with a digit. -/
inductive NamePlace where
  | title | dollarName | jump | knot | stitch | var | divert
deriving DecidableEq

/-- Where a word for the missing value stands. -/
inductive NullPlace where
  | command | var | inline
deriving DecidableEq

/-- What is defined by a name that no other file may define. -/
inductive NameKind where
  | node | declared | knot | var
deriving DecidableEq

inductive Problem where
  | untitledNode
  | unnamedKnot
  | unnamedStitch
  | leadingDigit (place : NamePlace) (name : String)
  | nullWord (place : NullPlace) (text : String)
  | unclosedIf (opened : Nat)
  | branchOutsideIf (text : String)
  | endifOutsideIf
  | branchAfterElse (opened : Nat)
  | unendedNode (title : String)
  | strayBrace
  | unevenBraces
  | unclosedBlock (opened : Nat)
  | manyElse (opened count : Nat)
  | declaredTwice (name : String) (first : Nat)
  | knotTwice (name : String) (first : Nat)
  | varTwice (name : String) (first : Nat)
  | definedElsewhere (kind : NameKind) (name owner : String)
  | earlyElse
  | boolWord (word : String)
  | choiceBracket
  | textBracket
deriving DecidableEq

inductive Severity where
  | medium | high
deriving DecidableEq

def Severity.name : Severity → String
  | medium => "medium"
  | high => "high"

def NameKind.name : NameKind → String
  | node => "node"
  | declared => "variable"
  | knot => "knot"
  | var => "VAR"

def inQuotes (s : String) : String :=
  "\"" ++ s ++ "\""

def NamePlace.describe (name : String) : NamePlace → String
  | title => "Node title " ++ inQuotes name
  | dollarName => "Variable $" ++ name
  | jump => "Jump target " ++ inQuotes name
  | knot => "Knot " ++ inQuotes name
  | stitch => "Stitch " ++ inQuotes name
  | var => "VAR " ++ name
  | divert => "Divert target " ++ inQuotes name

def NullPlace.describe (text : String) : NullPlace → String
  | command => "Command <<" ++ text ++ ">> uses a null literal"
  | var => "VAR " ++ text ++ " is initialized with a null literal"
  | inline => "Expression \x7b" ++ text ++ "\x7d uses a null literal"

namespace Problem

def code : Problem → String
  | untitledNode | unnamedKnot | unnamedStitch => "HEADER/MISSING_TITLE"
  | leadingDigit .. => "TOKEN/LEADING_DIGIT"
  | nullWord .. => "TOKEN/NULL_LITERAL"
  | unclosedIf _ | branchOutsideIf _ | endifOutsideIf | unendedNode _ | strayBrace | unevenBraces
  | unclosedBlock _ => "BLOCK/UNBALANCED"
  | branchAfterElse _ | manyElse .. => "BLOCK/MULTIPLE_ELSE"
  | declaredTwice .. | knotTwice .. | varTwice .. | definedElsewhere .. => "DECL/DUPLICATE"
  | earlyElse | boolWord _ => "INK/ELSE_BRANCH"
  | choiceBracket | textBracket => "INK/UNESCAPED_BRACKET"

def message : Problem → String
  | untitledNode => "Node header has no title"
  | unnamedKnot => "Knot header has no name"
  | unnamedStitch => "Stitch header has no name"
  | leadingDigit place name => place.describe name ++ " starts with a digit"
  | nullWord place text => place.describe text
  | unclosedIf opened => "<<if>> at line " ++ toString opened ++ " has no matching <<endif>>"
  | branchOutsideIf text => text ++ " outside an <<if>> block"
  | endifOutsideIf => "<<endif>> without an open <<if>>"
  | branchAfterElse opened =>
    "Branch after <<else>> in the block opened at line " ++ toString opened
  | unendedNode title => "Node " ++ inQuotes title ++ " is not terminated by ==="
  | strayBrace => "\x7d without an open conditional block"
  | unevenBraces => "Unbalanced braces on line"
  | unclosedBlock opened =>
    "Conditional block at line " ++ toString opened ++ " is never closed"
  | manyElse opened count =>
    "Conditional block at line " ++ toString opened ++ " has " ++ toString count ++
      " else branches"
  | declaredTwice name first => "$" ++ name ++ " is already declared at line " ++ toString first
  | knotTwice name first =>
    "Knot " ++ inQuotes name ++ " is already defined at line " ++ toString first
  | varTwice name first => "VAR " ++ name ++ " is already declared at line " ++ toString first
  | definedElsewhere kind name owner =>
    kind.name ++ " " ++ inQuotes name ++ " is also defined in " ++ owner
  | earlyElse => "- else: must be the last branch"
  | boolWord word => "Branch literal " ++ inQuotes word ++ " is not an Ink boolean"
  | choiceBracket => "Choice text contains unescaped brackets"
  | textBracket => "Content line contains unescaped brackets"

/-- A bracket may be meant; every other problem breaks the script. -/
def severity : Problem → Severity
  | choiceBracket | textBracket => .medium
  | _ => .high

end Problem

structure Issue where
  problem : Problem
  line : Nat
  file : Option String
deriving DecidableEq

/-- An issue of a script that is looked at alone. -/
def Problem.at (p : Problem) (line : Nat) : Issue :=
  ⟨p, line, none⟩

/-- A script passes when nothing in it breaks it. -/
def passes (issues : List Issue) : Bool :=
  !issues.any (·.problem.severity = .high)

end StoryFlow.Lint
