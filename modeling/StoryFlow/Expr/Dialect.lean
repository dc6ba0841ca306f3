import StoryFlow.Text.Blank

/-! # Script dialects

How each script language refers to a variable, joins conditions, tests and assigns. A dialect that
has no form for an operator says so with `none`.
-/

namespace StoryFlow

inductive Dialect where
  | ink | yarn | unity | godot | unreal | articy
deriving DecidableEq

/-- How a reference to a variable is written. -/
inductive RefStyle where
  | underscore | dollarUnderscore | luaTable | dotted
deriving DecidableEq

/-- The tests of a text against another one. -/
inductive TextTest where
  | contains | notContains | startsWith | endsWith
deriving DecidableEq

inductive Sign where
  | plus | minus
deriving DecidableEq

def Sign.symbol : Sign → String
  | plus => "+"
  | minus => "-"

namespace RefStyle

open Text

/-- References keep ASCII letters, digits, underscores, dots and hyphens. -/
def isRefChar (c : Char) : Bool :=
  isWordChar c || c == '.' || c == '-'

def cleanChars (cs : List Char) : List Char :=
  cs.filter isRefChar

/-- Dots and hyphens become underscores. -/
def flatChars (cs : List Char) : List Char :=
  (cleanChars cs).map (fun c => if c = '.' ∨ c = '-' then '_' else c)

def clean (s : String) : String := onChars cleanChars s

def flat (s : String) : String := onChars flatChars s

/-- The reference to a variable of a sheet. -/
def reference (style : RefStyle) (sheet name : String) : String :=
  match style with
  | underscore => flat sheet ++ "_" ++ flat name
  | dollarUnderscore => "$" ++ flat sheet ++ "_" ++ flat name
  | luaTable => "Variable[\"" ++ clean sheet ++ "." ++ clean name ++ "\"]"
  | dotted => clean sheet ++ "." ++ clean name

end RefStyle

namespace Dialect

def all : List Dialect := [ink, yarn, unity, godot, unreal, articy]

def name : Dialect → String
  | ink => "ink"
  | yarn => "yarn"
  | unity => "unity"
  | godot => "godot"
  | unreal => "unreal"
  | articy => "articy"

def ofName? (s : String) : Option Dialect :=
  all.find? (·.name == s)

def refStyle : Dialect → RefStyle
  | ink => .underscore
  | yarn => .dollarUnderscore
  | unity => .luaTable
  | godot => .underscore
  | unreal => .dotted
  | articy => .dotted

def reference (d : Dialect) (sheet name : String) : String :=
  d.refStyle.reference sheet name

def andWord : Dialect → String
  | unreal => " AND "
  | articy => " && "
  | _ => " and "

def orWord : Dialect → String
  | unreal => " OR "
  | articy => " || "
  | _ => " or "

/-- The condition that always holds. -/
def trueLiteral (_ : Dialect) : String := "true"

/-- The condition that never holds. -/
def falseLiteral (_ : Dialect) : String := "false"

def nullWord : Dialect → String
  | ink | yarn => "\"\""
  | unity => "nil"
  | godot | articy => "null"
  | unreal => "None"

/-- Does each operand of an `or` get parentheses of its own? -/
def wrapsOr (d : Dialect) : Bool :=
  d = unity

def notEquals : Dialect → String
  | unity => "~="
  | _ => "!="

def isTrue (d : Dialect) (ref : String) : String :=
  match d with
  | ink => ref
  | _ => ref ++ " == true"

def isFalse (d : Dialect) (ref : String) : String :=
  match d with
  | ink => "not " ++ ref
  | _ => ref ++ " == false"

/-- The test for a missing value. -/
def isNil? (d : Dialect) (ref : String) : Option String :=
  match d with
  | ink => none
  | d => some (ref ++ " == " ++ d.nullWord)

/-- The function that the host of a script has to provide for a test. -/
def functionName : TextTest → String
  | .contains | .notContains => "string_contains"
  | .startsWith => "string_starts_with"
  | .endsWith => "string_ends_with"

def textTest? (d : Dialect) (t : TextTest) (ref literal : String) : Option String :=
  match d, t with
  | ink, _ => none
  | yarn, .notContains => some ("!" ++ functionName t ++ "(" ++ ref ++ ", " ++ literal ++ ")")
  | yarn, _ => some (functionName t ++ "(" ++ ref ++ ", " ++ literal ++ ")")
  | unity, .contains => some ("string.find(" ++ ref ++ ", " ++ literal ++ ") ~= nil")
  | unity, .notContains => some ("string.find(" ++ ref ++ ", " ++ literal ++ ") == nil")
  | unity, .startsWith =>
    some ("string.sub(" ++ ref ++ ", 1, string.len(" ++ literal ++ ")) == " ++ literal)
  | unity, .endsWith =>
    some ("string.sub(" ++ ref ++ ", -string.len(" ++ literal ++ ")) == " ++ literal)
  | godot, .contains => some (literal ++ " in " ++ ref)
  | godot, .notContains => some (literal ++ " not in " ++ ref)
  | godot, .startsWith => some (ref ++ ".begins_with(" ++ literal ++ ")")
  | godot, .endsWith => some (ref ++ ".ends_with(" ++ literal ++ ")")
  | unreal, .contains => some ("Contains(" ++ ref ++ ", " ++ literal ++ ")")
  | unreal, .notContains => some ("!Contains(" ++ ref ++ ", " ++ literal ++ ")")
  | unreal, .startsWith => some ("StartsWith(" ++ ref ++ ", " ++ literal ++ ")")
  | unreal, .endsWith => some ("EndsWith(" ++ ref ++ ", " ++ literal ++ ")")
  | articy, .contains => some ("contains(" ++ ref ++ ", " ++ literal ++ ")")
  | articy, .notContains => some ("!contains(" ++ ref ++ ", " ++ literal ++ ")")
  | articy, .startsWith => some ("startsWith(" ++ ref ++ ", " ++ literal ++ ")")
  | articy, .endsWith => some ("endsWith(" ++ ref ++ ", " ++ literal ++ ")")

/-- Are text tests calls that the host has to provide? -/
def needsFunctions (d : Dialect) : Bool :=
  d = yarn

def hasDates (d : Dialect) : Bool :=
  d ≠ ink

/-- What stands for a rule that cannot be expressed; `none` drops the rule. -/
def placeholder? (d : Dialect) (operator : String) : Option String :=
  match d with
  | ink => some ("true /* " ++ operator ++ " unsupported */")
  | _ => none

def assign (d : Dialect) (ref value : String) : String :=
  match d with
  | ink => "~ " ++ ref ++ " = " ++ value
  | yarn => "<<set " ++ ref ++ " to " ++ value ++ ">>"
  | _ => ref ++ " = " ++ value

def increment (d : Dialect) (ref : String) (sign : Sign) (value : String) : String :=
  match d with
  | ink => "~ " ++ ref ++ " " ++ sign.symbol ++ "= " ++ value
  | yarn => "<<set " ++ ref ++ " to " ++ ref ++ " " ++ sign.symbol ++ " " ++ value ++ ">>"
  | unity => ref ++ " = " ++ ref ++ " " ++ sign.symbol ++ " " ++ value
  | _ => ref ++ " " ++ sign.symbol ++ "= " ++ value

def negate (d : Dialect) (expr : String) : String :=
  match d with
  | ink | unity => "not " ++ expr
  | _ => "!" ++ expr

/-- The assignment that keeps a value that is set, where the dialect can tell. -/
def assignIfUnset (d : Dialect) (ref value : String) : String :=
  match d with
  | ink => "~ " ++ ref ++ " = " ++ value
  | yarn => "<<set " ++ ref ++ " to " ++ value ++ ">>"
  | unity => "if " ++ ref ++ " == nil then " ++ ref ++ " = " ++ value ++ " end"
  | godot => "if " ++ ref ++ " == null: " ++ ref ++ " = " ++ value
  | unreal => "if " ++ ref ++ " == None: " ++ ref ++ " = " ++ value
  | articy => "if (" ++ ref ++ " == null) " ++ ref ++ " = " ++ value

end Dialect

end StoryFlow
