import StoryFlow.Expr.Assignment
import StoryFlow.Expr.Compile
import StoryFlow.Graph.Index
import StoryFlow.Guid
import StoryFlow.Options
import StoryFlow.Output
import StoryFlow.Variable
import StoryFlow.Xml

/-! # Articy documents

The project as a tree of elements. Variables are grouped by the first part of their sheet's
shortcut; sheets become entities, and flows become fragments with their nodes and connections.
-/

namespace StoryFlow.Articy

open Xml

def typeName : VariableType → String
  | .number => "int"
  | .boolean => "bool"
  | .string => "string"

/-- The part of a sheet's shortcut before the first dot. -/
def nameSpace (v : Variable) : String :=
  String.ofList (v.sheet.toList.takeWhile (· ≠ '.'))

/-- The name of a variable inside its name space. -/
def localName (space : String) (v : Variable) : String :=
  let head := space.toList ++ ['.']
  let full := v.fullRef.toList
  if head.isPrefixOf full then String.ofList (full.drop head.length) else v.fullRef

def variableTree (space : String) (v : Variable) : Xml :=
  element "Variable" [("Name", localName space v), ("Type", typeName v.type),
    ("Value", v.initial.write)] []

/-- The variables by name space, in the order of names. -/
def globalVariables (vars : List Variable) : Xml :=
  element "GlobalVariables" [] ((Text.sortByUnits Prod.fst (Assoc.group nameSpace vars)).map
    fun (space, vs) => element "Namespace" [("Name", space)] (vs.map (variableTree space)))

def entity (s : Sheet) : Xml :=
  element "Entity" [("Type", "Character"), ("Id", Guid.ofKey ("entity:" ++ s.id)),
    ("TechnicalName", s.shortcut)] [
    leaf "DisplayName" s.name,
    element "Properties" [] (s.vars.map fun v =>
      element "Property" [("Name", v.name), ("Type", typeName v.type)] [text v.initial.write])]

def condition (stored : Option Json) : Noted (Option String) :=
  Condition.guard? .articy stored

def script (assignments : List Json) : Noted (Option String) :=
  Assignment.script? .articy assignments

def nodeKey (id : String) : String := "node:" ++ id

def responses (parent : String) : List Response → Noted (List Xml)
  | [] => pure []
  | r :: rs => do
    let guard ← condition r.condition
    let script ← script r.assignments
    let fragment := element "DialogueFragment" [("Id", Guid.ofKey ("resp:" ++ r.id)),
      ("Speaker", ""), ("TechnicalName", "resp_" ++ r.id), ("Parent", parent)]
      (leaf "Text" (Markup.strip r.text) :: (guard.toList.map (leaf "Condition") ++
        script.toList.map (leaf "Instruction")))
    let rest ← responses parent rs
    return fragment :: rest

/-- The elements of a node: one, and one more per response; none for an unknown kind. -/
def node (sheets : List Sheet) (n : Node) : Noted (List Xml) :=
  let id := Guid.ofKey (nodeKey n.id)
  let named (tag lead : String) (more : List (String × String)) (children : List Xml) : Xml :=
    element tag ([("Id", id), ("TechnicalName", lead ++ n.id)] ++ more) children
  match n.body with
  | .dialogue d => do
    let guard ← condition d.condition
    let speaker := ((d.speakerIn sheets).map Sheet.shortcut).getD ""
    let fragment := element "DialogueFragment"
      [("Id", id), ("Speaker", speaker), ("TechnicalName", "dlg_" ++ n.id)]
      ([leaf "Text" d.spoken, leaf "MenuText" (d.menuText.getD ""),
        leaf "StageDirections" (Markup.strip? d.stageDirections)] ++
        guard.toList.map (leaf "Condition"))
    let responses ← responses id d.responses
    return fragment :: responses
  | .branching b => do
    let guard ← condition b.condition
    return [named "Condition" "cond_" [] [leaf "Expression" (guard.getD "")]]
  | .instruction assignments => do
    let script ← script assignments
    return [named "Instruction" "inst_" [] [leaf "Expression" (script.getD "")]]
  | .hub h => pure [named "Hub" "hub_" [] [leaf "DisplayName" (h.label.getD "")]]
  | .jump j =>
    pure [named "Jump" "jump_" [("Target", (j.hub <|> j.flowShortcut).getD "")] []]
  | .entry => pure [named "Entry" "entry_" [] []]
  | .exit _ => pure [named "Exit" "exit_" [] []]
  | .scene s =>
    pure [named "LocationSettings" "scene_" [] [leaf "Location" (s.place.getD "")]]
  | .subflow s =>
    pure [named "FlowFragment" "subflow_" [("Reference", s.flowShortcut.getD "")] []]
  | .unknown => pure []

def nodes (sheets : List Sheet) : List Node → Noted (List Xml)
  | [] => pure []
  | n :: ns => do
    let own ← node sheets n
    let rest ← nodes sheets ns
    return own ++ rest

/-- The key of a connection: its id, or else what it connects. -/
def connectionKey (c : Connection) : String :=
  match given c.id with
  | some id => "conn:" ++ id
  | none => "conn:" ++ c.source ++ ":" ++ c.sourcePin ++ ":" ++ c.target

def connection (c : Connection) : Xml :=
  element "Connection" [("Id", Guid.ofKey (connectionKey c)),
    ("Source", Guid.ofKey (nodeKey c.source)), ("SourcePin", c.sourcePin),
    ("Target", Guid.ofKey (nodeKey c.target))] []

def flow (sheets : List Sheet) (f : Flow) : Noted Xml := do
  let nodes ← nodes sheets f.nodes
  let name := if f.handle = "" then "flow_" ++ f.id else f.handle
  return element "FlowFragment" [("Type", "Dialogue"), ("Id", Guid.ofKey ("flow:" ++ f.id)),
    ("TechnicalName", name)] [
    leaf "DisplayName" f.name,
    element "Nodes" [] nodes,
    element "Connections" [] (f.connections.map connection)]

def flows (sheets : List Sheet) : List Flow → Noted (List Xml)
  | [] => pure []
  | f :: fs => do
    let own ← flow sheets f
    let rest ← flows sheets fs
    return own :: rest

/-- The element tree of a project, without any indentation. -/
def tree (o : Options) (p : Project) : Noted Xml := do
  let flows ← flows p.sheets p.flows
  return element "ArticyData" [] [
    element "Project" [("Name", p.info.name), ("Guid", Guid.ofKey ("project:" ++ p.info.id)),
      ("TechnicalName", Text.identifier ((given p.info.slug).getD "narrative_project"))] [
      element "ExportSettings" [] [leaf "ExportVersion" "1.0", leaf "ExporterVersion" o.version],
      globalVariables (variablesOf p.sheets),
      element "Hierarchy" [] (p.sheets.map entity ++ flows)]]

/-- The articy export of a project. -/
def output (o : Options) (p : Project) : Noted Output := do
  let tree ← tree o p
  return .text (document (if o.prettyPrint then indent 0 tree else tree))

end StoryFlow.Articy
