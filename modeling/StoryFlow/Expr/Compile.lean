import StoryFlow.Expr.Condition
import StoryFlow.Expr.Literal

/-! # Compiling conditions

A rule becomes an expression of the dialect, or nothing when the dialect drops it. What is kept
is joined; a group of several parts is put in parentheses, a group of one is that part.
-/

namespace StoryFlow

/-- What a rule asks about its variable. -/
inductive Operator where
  | comparison (symbol : String)
  | notEquals
  | isTrue
  | isFalse
  | isNil
  | isEmpty
  | textTest (t : TextTest)
  | date (symbol : String)
  | other
deriving DecidableEq

def Operator.ofName : String → Operator
  | "equals" => comparison "=="
  | "greater_than" => comparison ">"
  | "less_than" => comparison "<"
  | "greater_than_or_equal" => comparison ">="
  | "less_than_or_equal" => comparison "<="
  | "not_equals" => notEquals
  | "is_true" => isTrue
  | "is_false" => isFalse
  | "is_nil" => isNil
  | "is_empty" => isEmpty
  | "contains" => textTest .contains
  | "not_contains" => textTest .notContains
  | "starts_with" => textTest .startsWith
  | "ends_with" => textTest .endsWith
  | "before" => date "<"
  | "after" => date ">"
  | _ => other

namespace Rule

variable (d : Dialect) (r : Rule)

def ref : String :=
  d.reference r.sheet r.name

def literal : String :=
  Literal.ofJson d.nullWord r.value

def compare (symbol : String) : String :=
  r.ref d ++ " " ++ symbol ++ " " ++ r.literal d

/-- The expression of a rule that the dialect can express. -/
def expression? : Option String :=
  match Operator.ofName r.operator with
  | .comparison symbol => some (r.compare d symbol)
  | .notEquals => some (r.compare d d.notEquals)
  | .isTrue => some (d.isTrue (r.ref d))
  | .isFalse => some (d.isFalse (r.ref d))
  | .isNil => d.isNil? (r.ref d)
  | .isEmpty => some (r.ref d ++ " == \"\"")
  | .textTest t => d.textTest? t (r.ref d) (r.literal d)
  | .date symbol => if d.hasDates then some (r.compare d symbol) else none
  | .other => none

/-- The function that the host has to provide for a rule. -/
def function? : Option String :=
  match Operator.ofName r.operator with
  | .textTest t => if d.needsFunctions then some (Dialect.functionName t) else none
  | _ => none

/-- Compiles a rule; one without an expression takes the dialect's placeholder. -/
def compile : Noted (Option String) :=
  match r.expression? d with
  | some expr =>
    match r.function? d with
    | some function =>
      ⟨some expr, [.functionRequired r.operator function d (r.ref d)], []⟩
    | none => ⟨some expr, Notes.none⟩
  | none => ⟨d.placeholder? r.operator, [.unsupportedOperator r.operator d (r.ref d)], []⟩

end Rule

def parenthesize (expr : String) : String :=
  "(" ++ expr ++ ")"

/-- Does a part begin and end with a parenthesis? -/
def isWrapped (expr : String) : Bool :=
  expr.toList.head? == some '(' && expr.toList.getLast? == some ')'

namespace Condition

/-- Joins the parts with the word of the logic. -/
def join (d : Dialect) (logic : Logic) (parts : List String) : String :=
  match logic with
  | .all => d.andWord.intercalate parts
  | .any =>
    d.orWord.intercalate
      (if d.wrapsOr ∧ 1 < parts.length then
        parts.map fun p => if isWrapped p then p else parenthesize p
      else parts)

/-- The expressions of the rules that are kept. -/
def compileRules (d : Dialect) : List Rule → Noted (List String)
  | [] => pure []
  | r :: rs => do
    let expr ← r.compile d
    let rest ← compileRules d rs
    return expr.toList ++ rest

/-- A group of the given parts. -/
def grouped (d : Dialect) (logic : Logic) : List String → Option String
  | [] => none
  | [p] => some p
  | ps => some (parenthesize (join d logic ps))

mutual

/-- The expression of a condition inside another one. -/
def compileGroup (d : Dialect) : Condition → Noted (Option String)
  | rules logic rs => do return grouped d logic (← compileRules d rs)
  | groups logic cs => do return grouped d logic (← compileGroups d cs)

def compileGroups (d : Dialect) : List Condition → Noted (List String)
  | [] => pure []
  | c :: cs => do
    let expr ← compileGroup d c
    let rest ← compileGroups d cs
    return expr.toList ++ rest

end

/-- The expression of a whole condition, empty when no rule is kept. -/
def compile (d : Dialect) : Condition → Noted String
  | rules logic rs => do return join d logic (← compileRules d rs)
  | groups logic cs => do return join d logic (← compileGroups d cs)

/-- Reads and compiles a stored condition. -/
def compileStored (d : Dialect) (stored : Option Json) : Except ExprError (Noted String) := do
  match ← read stored with
  | none => return pure ""
  | some c => return c.compile d

/-- The expression of a stored condition for a script, none for an empty one. A condition that
cannot be compiled is reported and left out. -/
def guard? (d : Dialect) (stored : Option Json) : Noted (Option String) :=
  match compileStored d stored with
  | .ok compiled => do
    let expr ← compiled
    return given expr
  | .error e => do
    Noted.fail ⟨d, e⟩
    return none
where
  given (expr : String) : Option String := if expr = "" then none else some expr

/-- The expression of a stored condition, or the one that always holds. -/
def guardOrTrue (d : Dialect) (stored : Option Json) : String :=
  match compileStored d stored with
  | .ok compiled => if compiled.value = "" then d.trueLiteral else compiled.value
  | .error _ => d.trueLiteral

/-- The compiled rule with an id in a stored condition. -/
def caseGuard (d : Dialect) (stored : Option Json) (id : String) : Noted (Option String) :=
  match read stored with
  | .ok (some c) => ((c.findRule id).map (·.compile d)).getD (pure none)
  | _ => pure none

end Condition

end StoryFlow
