import StoryFlow.Project.Basic
import StoryFlow.Text.Markup

/-! # Variables of a story

Every named block of a sheet that is neither a constant nor a block without a value is a variable.
It starts with the value stored under the block's type, when that has the right shape, and with
the zero value of its type otherwise.
-/

namespace StoryFlow

inductive VariableType where
  | number | boolean | string
deriving DecidableEq

def VariableType.name : VariableType → String
  | number => "number"
  | boolean => "boolean"
  | string => "string"

/-- Blocks that are neither numbers nor booleans hold text. -/
def VariableType.ofBlockType : String → VariableType
  | "number" => number
  | "boolean" => boolean
  | _ => string

/-- The value that a variable starts with. -/
inductive Value where
  | number (n : Number)
  | boolean (b : Bool)
  | text (s : String)
deriving DecidableEq

namespace Value

/-- The stored value of a block with the given type, or the zero value. -/
def ofBlock (type : String) (value : Fields) : Value :=
  match type, value.get? type with
  | "number", some (.num n) => number (if n.isFinite then n else Number.zero false)
  | "number", _ => number (Number.zero false)
  | "boolean", some (.bool b) => boolean b
  | "boolean", _ => boolean false
  | "rich_text", some (.str s) => text (Markup.strip s)
  | "text", some (.str s) => text s
  | "select", some (.str s) => text s
  | "date", some (.str s) => text s
  | _, _ => text ""

def toJson : Value → Json
  | number n => .num n
  | boolean b => .bool b
  | text s => .str s

/-- The bare text of a value. -/
def write : Value → String
  | number n => n.text
  | boolean b => if b then "true" else "false"
  | text s => s

/-- A character of a declared text: quotes, backslashes and line feeds are escaped. -/
def declaredChar (c : Char) : List Char :=
  if c = '\\' then ['\\', '\\']
  else if c = '"' then ['\\', '"']
  else if c = '\n' then ['\\', 'n']
  else [c]

/-- The characters of a declared text; a carriage return before a line feed is part of the line end. -/
def declaredChars : List Char → List Char
  | [] => []
  | c :: cs =>
    (if c = '\r' ∧ cs.head? = some '\n' then [] else declaredChar c) ++ declaredChars cs

/-- The literal that declares a variable of the given type in a script. -/
def declaration : VariableType → Value → String
  | .number, number n => n.text
  | .number, _ => "0"
  | .boolean, boolean b => if b then "true" else "false"
  | .boolean, _ => "false"
  | .string, text s => "\"" ++ Text.onChars declaredChars s ++ "\""
  | .string, _ => "\"\""

end Value

structure Variable where
  sheet : String
  name : String
  type : VariableType
  initial : Value
  block : Block
deriving DecidableEq

/-- The sheet's shortcut and the variable's name, joined by a dot. -/
def Variable.fullRef (v : Variable) : String :=
  v.sheet ++ "." ++ v.name

def Variable.declaration (v : Variable) : String :=
  v.initial.declaration v.type

/-- Blocks of these types never carry a value. -/
def Block.hasNoValue (b : Block) : Bool :=
  b.type ∈ ["divider", "reference", "table"]

/-- The variable of a block. -/
def Block.toVariable (sheet : String) (b : Block) : Option Variable :=
  if b.isConstant || b.hasNoValue then none
  else (given b.variableName).map fun name =>
    ⟨sheet, name, VariableType.ofBlockType b.type, Value.ofBlock b.type b.value, b⟩

def Sheet.vars (s : Sheet) : List Variable :=
  s.blocks.filterMap (Block.toVariable s.shortcut)

/-- The variables of all sheets, in their order. -/
def variablesOf (sheets : List Sheet) : List Variable :=
  sheets.flatMap Sheet.vars

/-- The sheet with an id; of several the last. -/
def sheet? (sheets : List Sheet) (id : String) : Option Sheet :=
  sheets.reverse.find? (·.id == id)

/-- The sheet of the speaker of a line. -/
def Dialogue.speakerIn (d : Dialogue) (sheets : List Sheet) : Option Sheet :=
  d.speaker.bind (sheet? sheets)

/-- The text of a line as it is spoken. -/
def Dialogue.spoken (d : Dialogue) : String :=
  Markup.strip d.text

end StoryFlow
