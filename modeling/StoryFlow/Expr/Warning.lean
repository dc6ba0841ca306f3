import StoryFlow.Expr.Dialect
import StoryFlow.Json.Basic

/-! # Warnings and failures of compilation

A rule that a dialect cannot express, or only with a function of the host, is warned about. A
condition that is free text cannot be compiled at all. `Noted` carries what was reported on the
way to a value, in the order in which it came up.
-/

namespace StoryFlow

inductive Warning where
  | unsupportedOperator (operator : String) (dialect : Dialect) (ref : String)
  | functionRequired (operator function : String) (dialect : Dialect) (ref : String)
deriving DecidableEq

def Warning.message : Warning → String
  | unsupportedOperator operator dialect _ =>
    "Operator '" ++ operator ++ "' is not supported by " ++ dialect.name
  | functionRequired operator function dialect _ =>
    "Operator '" ++ operator ++ "' requires custom function '" ++ function ++ "' in " ++ dialect.name

/-- The function that a warning asks for. -/
def Warning.function? : Warning → Option String
  | functionRequired _ function _ _ => some function
  | unsupportedOperator .. => none

/-- Why an expression cannot be compiled. -/
inductive ExprError where
  | legacyCondition (source : String)
  | unknownDialect (name : String)
deriving DecidableEq

namespace ExprError

def code : ExprError → String
  | legacyCondition _ => "LEGACY_CONDITION"
  | unknownDialect _ => "UNKNOWN_ENGINE"

def message : ExprError → String
  | legacyCondition _ => "Plain-text conditions cannot be transpiled"
  | unknownDialect name => "Unknown dialect: " ++ name

def details : ExprError → Json
  | legacyCondition source => .obj [("source", .str source)]
  | unknownDialect name => .obj [("dialect", .str name)]

end ExprError

/-- The dialect with a name. -/
def Dialect.named (name : String) : Except ExprError Dialect :=
  (ofName? name).elim (.error (.unknownDialect name)) .ok

/-- A condition that was left out of a script. -/
structure Failure where
  dialect : Dialect
  error : ExprError
deriving DecidableEq

structure Notes where
  warnings : List Warning
  failures : List Failure
deriving DecidableEq

namespace Notes

def none : Notes := ⟨[], []⟩

instance : Append Notes where
  append a b := ⟨a.warnings ++ b.warnings, a.failures ++ b.failures⟩

end Notes

/-- A value and what was reported on the way to it. -/
structure Noted (α : Type) where
  value : α
  notes : Notes
deriving DecidableEq

namespace Noted

def warn (warnings : List Warning) : Noted Unit :=
  ⟨(), warnings, []⟩

def fail (failure : Failure) : Noted Unit :=
  ⟨(), [], [failure]⟩

instance : Monad Noted where
  pure a := ⟨a, Notes.none⟩
  bind x f := ⟨(f x.value).value, x.notes ++ (f x.value).notes⟩

end Noted

end StoryFlow
