import StoryFlow.Project.Basic
import StoryFlow.Text.Identifier
import StoryFlow.UniqueKeys

/-! # Names of flows in scripts

Every flow gets an identifier of its own. Subflows and jumps find it by the id of the flow or by
its shortcut, and a shortcut that no flow has becomes an identifier as it is.
-/

namespace StoryFlow

/-- The identifier that a flow asks for; the guard stands before a leading digit. -/
def Flow.identifier (guard : String) (f : Flow) : String :=
  let own := Text.identifier f.handle
  Text.guardDigit guard (if own = "" then "flow_" ++ f.id else own)

/-- The identifier of a project, `story` when it has none. -/
def ProjectInfo.identifier (p : ProjectInfo) : String :=
  let own := Text.identifier ((given p.slug).getD "story")
  if own = "" then "story" else own

structure FlowNames where
  byId : List (String × String)
  byShortcut : List (String × String)
deriving DecidableEq

/-- What a subflow or a jump says about the flow that it leads to. -/
structure FlowTarget where
  flowId : Option String
  shortcut : Option String
deriving DecidableEq

def Subflow.flowTarget (s : Subflow) : FlowTarget :=
  ⟨s.flowId, s.flowShortcut⟩

namespace FlowNames

def ofFlows (guard : String) (flows : List Flow) : FlowNames :=
  let byId := (UniqueKeys.ofList flows Flow.id (Flow.identifier guard)).pairs
  { byId
    byShortcut := Assoc.ofPairs (flows.filterMap fun f => do
      let shortcut ← given f.shortcut
      let name ← byId.lookup f.id
      some (shortcut, name)) }

/-- The name of a flow. -/
def nameOf (names : FlowNames) (guard : String) (f : Flow) : String :=
  (names.byId.lookup f.id).getD (f.identifier guard)

/-- The name that a target leads to, none when it says nothing. -/
def resolve (names : FlowNames) (guard : String) (t : FlowTarget) : Option String :=
  (given t.flowId).bind (fun id => names.byId.lookup id) <|>
    (given t.shortcut).map fun shortcut =>
      (names.byShortcut.lookup shortcut).getD (Text.guardDigit guard (Text.identifier shortcut))

end FlowNames

end StoryFlow
