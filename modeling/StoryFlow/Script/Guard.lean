import StoryFlow.Expr.Compile
import StoryFlow.Project.Node

/-! # Guards of branches

The cases of a branching become a chain of tests. In switch mode each case is guarded by the rule
that it names; otherwise the first case takes the whole condition, negated when it stands for
`false`, the cases between never hold, and the last one is the fallback.
-/

namespace StoryFlow

inductive Guard where
  | ifTest (expr : String)
  | elseIf (expr : String)
  | otherwise
deriving DecidableEq

namespace Branching

variable (d : Dialect) (b : Branching)

/-- A case after the first one without a guard of its own. -/
def fallback (index : Nat) : Guard :=
  if index + 1 = b.cases.length then .otherwise else .elseIf d.falseLiteral

/-- The guard of a case in switch mode. -/
def switchGuard (c : Case) (index : Nat) : Noted Guard := do
  let guard ← (c.id.map fun id => Condition.caseGuard d b.condition id).getD (pure none)
  return match index, guard with
    | 0, guard => .ifTest (guard.getD d.falseLiteral)
    | _, some expr => .elseIf expr
    | _, none => b.fallback d index

/-- The guard of a case that stands for an outcome of the whole condition. -/
def outcomeGuard (c : Case) (index : Nat) : Noted Guard :=
  match index with
  | 0 => do
    let expr := (← Condition.guard? d b.condition).getD d.trueLiteral
    return .ifTest (if c.value = some "false" then d.negate (parenthesize expr) else expr)
  | _ => pure (b.fallback d index)

/-- The guard of the case at a position. -/
def guard (c : Case) (index : Nat) : Noted Guard :=
  if b.isSwitch then b.switchGuard d c index else b.outcomeGuard d c index

/-- The guards of the cases from a position on. -/
def guardsFrom : Nat → List Case → Noted (List Guard)
  | _, [] => pure []
  | i, c :: cs => do
    let g ← b.guard d c i
    let rest ← guardsFrom (i + 1) cs
    return g :: rest

def guards : Noted (List Guard) :=
  b.guardsFrom d 0 b.cases

end Branching

end StoryFlow
