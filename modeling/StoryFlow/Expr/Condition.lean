import StoryFlow.Json.Reader
import StoryFlow.Number.Shortest
import StoryFlow.Expr.Warning

/-! # Conditions

A condition is a tree: rules, or groups of conditions, joined by `all` or `any`. It is stored as
an object with a list of rules or of blocks, or as the text of such an object. Rules and blocks
that are not complete are dropped; a text of any other form is a condition from before, which
nobody can compile.
-/

namespace StoryFlow

inductive Logic where
  | all | any
deriving DecidableEq

def Logic.name : Logic → String
  | all => "all"
  | any => "any"

/-- A comparison of a variable with a value, which may be missing. -/
structure Rule where
  id : Option String
  sheet : String
  name : String
  operator : String
  value : Option Json
deriving DecidableEq

inductive Condition where
  | rules (logic : Logic) (rules : List Rule)
  | groups (logic : Logic) (groups : List Condition)

namespace Condition

mutual

/-- The rules of a condition from left to right. -/
def flat : Condition → List Rule
  | rules _ rs => rs
  | groups _ cs => flatAll cs

def flatAll : List Condition → List Rule
  | [] => []
  | c :: cs => flat c ++ flatAll cs

end

mutual

/-- The first rule with an id. -/
def findRule (id : String) : Condition → Option Rule
  | rules _ rs => rs.find? (·.id == some id)
  | groups _ cs => findRuleIn id cs

def findRuleIn (id : String) : List Condition → Option Rule
  | [] => none
  | c :: cs => findRule id c <|> findRuleIn id cs

end

mutual

/-- The sheets that a condition reads. -/
def sheets : Condition → List String
  | rules _ rs => rs.map Rule.sheet
  | groups _ cs => sheetsOf cs

def sheetsOf : List Condition → List String
  | [] => []
  | c :: cs => sheets c ++ sheetsOf cs

end

end Condition

/-- A text that is there and not empty. -/
def Fields.filled (fs : Fields) (key : String) : Option String :=
  match fs.get? key with
  | some (.str s) => if s = "" then none else some s
  | _ => none

/-- A field that may be missing, `null` or a text; none when it is anything else. -/
def Fields.optionalText (fs : Fields) (key : String) : Option (Option String) :=
  match fs.get? key with
  | none | some .null => some none
  | some (.str s) => some (some s)
  | _ => none

/-- The id of a rule; none when it is neither a text nor a number nor missing. -/
def Fields.optionalId (fs : Fields) (key : String) : Option (Option String) :=
  match fs.get? key with
  | none | some .null => some none
  | some (.str s) => some (some s)
  | some (.num n) => some (some n.text)
  | _ => none

/-- A complete rule names a sheet, a variable and an operator. -/
def Rule.ofJson? : Json → Option Rule
  | .obj fs => do
    let id ← Fields.optionalId fs "id"
    let sheet ← Fields.filled fs "sheet"
    let name ← Fields.filled fs "variable"
    let operator ← Fields.filled fs "operator"
    some ⟨id, sheet, name, operator, Fields.get? fs "value"⟩
  | _ => none

namespace Condition

/-- How the parts of a stored condition are joined: `any` when it says so. -/
def logicOf (stored : Option String) : Logic :=
  if stored = some "any" then .any else .all

/-- The logic and the rules of an object that lists rules. -/
def rulesOf? (fs : Fields) : Option Condition := do
  let logic ← Fields.optionalText fs "logic"
  let items ← (← Fields.get? fs "rules").items?
  some (rules (logicOf logic) (items.filterMap Rule.ofJson?))

mutual

/-- A block of rules or a group of blocks, told apart by its type. -/
def ofBlock? : Json → Option Condition
  | .obj fs =>
    if Fields.get? fs "type" = some (.str "block") then rulesOf? fs
    else if Fields.get? fs "type" = some (.str "group") then
      (Fields.optionalText fs "logic").bind fun logic =>
        (blocksIn? fs).map fun blocks => groups (logicOf logic) blocks
    else none
  | _ => none

/-- The complete blocks of the field `blocks`. -/
def blocksIn? : List (String × Json) → Option (List Condition)
  | [] => none
  | (key, value) :: fs => if key = "blocks" then blocks? value else blocksIn? fs

def blocks? : Json → Option (List Condition)
  | .arr items => some (complete items)
  | _ => none

def complete : List Json → List Condition
  | [] => []
  | j :: items =>
    match ofBlock? j with
    | some c => c :: complete items
    | none => complete items

end

/-- The condition of an object that lists rules or blocks. -/
def ofJson? : Json → Option Condition
  | .obj fs =>
    rulesOf? fs <|> (do
      let logic ← Fields.optionalText fs "logic"
      let blocks ← blocksIn? fs
      some (groups (logicOf logic) blocks))
  | _ => none

/-- Reads a stored condition; no condition is one that always holds. -/
def read : Option Json → Except ExprError (Option Condition)
  | none | some .null => .ok none
  | some (.str s) =>
    if s = "" then .ok none
    else
      match (Json.read? s).bind ofJson? with
      | some c => .ok (some c)
      | none => .error (.legacyCondition s)
  | some j => .ok (ofJson? j)

end Condition

end StoryFlow
