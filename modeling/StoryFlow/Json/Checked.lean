import StoryFlow.Json.Basic
import StoryFlow.Number.Shortest

/-! # Checked reading of documents

A document is read against an expected shape. Every fault is collected with the path to it, in
the order of the fields, so a checked value is either the value or a list of issues, and
applying one to another joins the issues of both.
-/

namespace StoryFlow

/-- What kind of value a document holds. -/
inductive Json.Kind where
  | null | boolean | number | string | array | object
deriving DecidableEq

namespace Json

def Kind.name : Kind → String
  | null => "null"
  | boolean => "boolean"
  | number => "number"
  | string => "string"
  | array => "array"
  | object => "object"

def kind : Json → Kind
  | null => .null
  | bool _ => .boolean
  | num _ => .number
  | str _ => .string
  | arr _ => .array
  | obj _ => .object

end Json

inductive Fault where
  | missing
  | mismatch (expected received : Json.Kind)
  | noneFits
deriving DecidableEq

def Fault.message : Fault → String
  | missing => "Required"
  | mismatch expected received => "Expected " ++ expected.name ++ ", received " ++ received.name
  | noneFits => "Invalid input"

/-- A fault and the keys and indices that lead to it. -/
structure Issue where
  path : List String
  fault : Fault
deriving DecidableEq

def Issue.text (i : Issue) : String :=
  (if i.path.isEmpty then "(root)" else ".".intercalate i.path) ++ ": " ++ i.fault.message

inductive Checked (α : Type) where
  | valid (value : α)
  | faulty (issues : List Issue)

namespace Checked

variable {α β : Type}

protected def map (f : α → β) : Checked α → Checked β
  | valid a => valid (f a)
  | faulty is => faulty is

/-- Applies a checked function to a checked value and joins their issues. -/
protected def seq : Checked (α → β) → Checked α → Checked β
  | valid f, valid a => valid (f a)
  | valid _, faulty is => faulty is
  | faulty is, valid _ => faulty is
  | faulty is, faulty more => faulty (is ++ more)

instance : Applicative Checked where
  map := Checked.map
  pure := valid
  seq f x := f.seq (x ())

def fault (f : Fault) : Checked α :=
  faulty [⟨[], f⟩]

/-- Leads every path through one more key. -/
def under (key : String) : Checked α → Checked α
  | valid a => valid a
  | faulty is => faulty (is.map fun i => { i with path := key :: i.path })

end Checked

/-- Reads a value that may be missing. -/
abbrev Reader (α : Type) := Option Json → Checked α

namespace Reader

variable {α β : Type}

/-- A value of one kind. -/
def ofKind (expected : Json.Kind) (take : Json → Option α) : Reader α
  | none => .fault .missing
  | some j => (take j).elim (.fault (.mismatch expected j.kind)) .valid

def string : Reader String :=
  ofKind .string fun | .str s => some s | _ => none

def number : Reader Number :=
  ofKind .number fun | .num n => some n | _ => none

def boolean : Reader Bool :=
  ofKind .boolean fun | .bool b => some b | _ => none

/-- An object; the lost key is dropped. -/
def fields : Reader Fields :=
  ofKind .object fun | .obj fs => some (Fields.kept fs) | _ => none

/-- A missing value and `null` are both none. -/
def nullable (r : Reader α) : Reader (Option α)
  | none => .valid none
  | some .null => .valid none
  | some j => (r (some j)).map some

/-- A missing value is none, and `null` is a value of its own. -/
def maybe (r : Reader α) : Reader (Option (Option α))
  | none => .valid none
  | some j => (nullable r (some j)).map some

/-- The default stands for a missing value only. -/
def withDefault (default : α) (r : Reader α) : Reader α
  | none => .valid default
  | some j => r (some j)

/-- The default stands for `null` too. -/
def orElse (default : α) (r : Reader α) : Reader α :=
  fun j => (nullable r j).map (·.getD default)

/-- An id is a text or a number. -/
def ident : Reader String
  | some (.str s) => .valid s
  | some (.num n) => .valid n.text
  | _ => .fault .noneFits

/-- A reference to an id; an empty one is none. -/
def reference : Reader (Option String) :=
  fun j => (nullable ident j).map (·.filter (· ≠ ""))

def text : Reader (Option String) :=
  nullable string

def flag : Reader Bool :=
  orElse false boolean

/-- Free-form fields, none by default. -/
def freeForm : Reader Fields :=
  orElse [] fields

/-- Reads the elements from the given index on. -/
def elements (r : Reader α) : Nat → List Json → Checked (List α)
  | _, [] => .valid []
  | n, j :: items => List.cons <$> (r (some j)).under (toString n) <*> elements r (n + 1) items

def array (r : Reader α) : Reader (List α)
  | none => .fault .missing
  | some (.arr items) => elements r 0 items
  | some j => .fault (.mismatch .array j.kind)

/-- A list that may be missing. -/
def list (r : Reader α) : Reader (List α) :=
  withDefault [] (array r)

def object (read : Fields → Checked α) : Reader α
  | none => .fault .missing
  | some (.obj fs) => read fs
  | some j => .fault (.mismatch .object j.kind)

/-- The value of one field. -/
def field (fs : Fields) (key : String) (r : Reader α) : Checked α :=
  (r (fs.get? key)).under key

end Reader

end StoryFlow
