import StoryFlow.Expr.Condition
import StoryFlow.Expr.Literal

/-! # Assignments

An assignment sets or changes one variable, to a value or to the value of another variable.
Assignments that are not complete are skipped, and those with an operator that is not known are
reported.
-/

namespace StoryFlow

structure Assignment where
  sheet : String
  name : String
  operator : String
  value : Option Json
  valueType : Option String
  valueSheet : Option String
deriving DecidableEq

namespace Assignment

/-- A complete assignment names a sheet, a variable and an operator. -/
def ofJson? : Json → Option Assignment
  | .obj fs => do
    let sheet ← Fields.filled fs "sheet"
    let name ← Fields.filled fs "variable"
    let operator ← Fields.filled fs "operator"
    let valueType ← Fields.optionalText fs "value_type"
    let valueSheet ← Fields.optionalText fs "value_sheet"
    some ⟨sheet, name, operator, Fields.get? fs "value", valueType, valueSheet⟩
  | _ => none

/-- The complete assignments of a stored list. -/
def ofList (stored : List Json) : List Assignment :=
  stored.filterMap ofJson?

/-- The variable whose value is assigned: its sheet and its name. -/
def source? (a : Assignment) : Option (String × String) :=
  match a.valueType, a.valueSheet, a.value with
  | some "variable_ref", some sheet, some (.str name) =>
    if sheet = "" ∨ name = "" then none else some (sheet, name)
  | _, _, _ => none

/-- The assigned expression; a missing value is zero. -/
def valueExpr (d : Dialect) (a : Assignment) : String :=
  match a.source? with
  | some (sheet, name) => d.reference sheet name
  | none =>
    match a.value with
    | none | some .null => "0"
    | value => Literal.ofJson d.nullWord value

/-- The statement of an assignment with a known operator. -/
def statement? (d : Dialect) (a : Assignment) : Option String :=
  let ref := d.reference a.sheet a.name
  match a.operator with
  | "set" => some (d.assign ref (a.valueExpr d))
  | "set_true" => some (d.assign ref "true")
  | "set_false" => some (d.assign ref "false")
  | "toggle" => some (d.assign ref (d.negate ref))
  | "add" => some (d.increment ref .plus (a.valueExpr d))
  | "subtract" => some (d.increment ref .minus (a.valueExpr d))
  | "clear" => some (d.assign ref "\"\"")
  | "set_if_unset" => some (d.assignIfUnset ref (a.valueExpr d))
  | _ => none

def compile (d : Dialect) (a : Assignment) : Noted (Option String) :=
  match a.statement? d with
  | some stmt => pure (some stmt)
  | none => ⟨none, [.unsupportedOperator a.operator d (d.reference a.sheet a.name)], []⟩

def compileAll (d : Dialect) : List Assignment → Noted (List String)
  | [] => pure []
  | a :: as => do
    let stmt ← a.compile d
    let rest ← compileAll d as
    return stmt.toList ++ rest

/-- The statements of a stored list of assignments. -/
def statements (d : Dialect) (stored : List Json) : Noted (List String) :=
  compileAll d (ofList stored)

/-- The statements of a stored list, one per line. -/
def script (d : Dialect) (stored : List Json) : Noted String := do
  return "\n".intercalate (← statements d stored)

/-- The script of a stored list in the dialect with a name. -/
def scriptIn (dialect : String) (stored : List Json) : Except ExprError (Noted String) := do
  return script (← Dialect.named dialect) stored

/-- The statement of one stored value, empty when it has none. -/
def single (d : Dialect) (stored : Json) : String :=
  (script d [stored]).value

/-- The statements of a stored list, none when there are none. -/
def script? (d : Dialect) (stored : List Json) : Noted (Option String) := do
  let s ← script d stored
  return if s = "" then none else some s

end Assignment

end StoryFlow
