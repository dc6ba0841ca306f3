import StoryFlow.Expr.Assignment
import StoryFlow.Expr.Compile
import StoryFlow.Graph.Index
import StoryFlow.Json.Printer
import StoryFlow.Options
import StoryFlow.Output
import StoryFlow.UniqueKeys
import StoryFlow.Variable

/-! # Godot dialogues

Characters, variables and flows as tables of names. The nodes of a flow stand under their ids,
with the ids of the nodes that follow them.
-/

namespace StoryFlow.Godot

/-- A written node: its type, what follows it, and what its kind adds. -/
structure Entry where
  type : String
  next : List String
  more : Fields
deriving DecidableEq

def Entry.toJson (e : Entry) : Json :=
  .obj ([("type", .str e.type), ("next", .arr (e.next.map .str))] ++ e.more)

def targets (edges : List Edge) : List String :=
  edges.map Edge.target

/-- Does the edge leave from a response? -/
def isResponsePin (e : Edge) : Bool :=
  "response_".toList.isPrefixOf e.pin.toList

/-- The compiled condition, `null` when there is none. -/
def condition (stored : Option Json) : Noted Json := do
  return .ofOption .str (← Condition.guard? .godot stored)

def responses (index : Index) (id : String) : List Response → Noted (List Json)
  | [] => pure []
  | r :: rs => do
    let condition ← condition r.condition
    let response := Json.obj [("id", .str r.id), ("text", .str (Markup.strip r.text)),
      ("next", .arr ((targets (index.outgoingAt id r.pin)).map .str)), ("condition", condition)]
    let rest ← responses index id rs
    return response :: rest

/-- The statements of an instruction, `null` when there are none. -/
def code (assignments : List Json) : Noted Json := do
  return .ofOption .str (← Assignment.script? .godot assignments)

def entry (sheets : List Sheet) (index : Index) (n : Node) : Noted Entry :=
  let edges := index.outgoing n.id
  let plain (more : Fields) : Entry := ⟨n.type, targets edges, more⟩
  match n.body with
  | .dialogue d => do
    let responses ← responses index n.id d.responses
    let onward := if responses.isEmpty then edges else edges.filter (!isResponsePin ·)
    return ⟨n.type, targets onward, [
      ("character", .ofOption (fun s => .str s.shortcut) (d.speakerIn sheets)),
      ("text", .str d.spoken), ("stage_directions", .str (Markup.strip? d.stageDirections)),
      ("responses", .arr responses)]⟩
  | .branching b => do return plain [("condition", ← condition b.condition)]
  | .instruction assignments => do
    return plain [("code", ← code assignments), ("assignments", .arr assignments)]
  | .hub h => pure (plain [("label", .str (h.label.getD ""))])
  | .jump j => pure (plain [("target", .ofOption .str (j.hub <|> j.flowShortcut))])
  | .subflow s => pure (plain [("flow_shortcut", .ofOption .str s.flowShortcut)])
  | .scene s => pure (plain [("location", .str (s.place.getD ""))])
  | .exit technicalId => pure (plain [("technical_id", .str (technicalId.getD ""))])
  | .entry | .unknown => pure (plain [])

/-- The nodes of a flow with their ids. -/
def entries (sheets : List Sheet) (index : Index) : List Node → Noted (List (String × Entry))
  | [] => pure []
  | n :: ns => do
    let entry ← entry sheets index n
    let rest ← entries sheets index ns
    return (n.id, entry) :: rest

def flow (sheets : List Sheet) (f : Flow) : Noted Json := do
  let index := f.index
  let entries ← entries sheets index f.nodes
  return .obj [("name", .str f.name), ("start_node", .ofOption (fun n => .str n.id) index.entry),
    ("nodes", .obj (Fields.table (entries.map fun (id, e) => (id, e.toJson))))]

def flows (sheets : List Sheet) (keys : UniqueKeys) : List Flow → Noted (List (String × Json))
  | [] => pure []
  | f :: fs => do
    let written ← flow sheets f
    let rest ← flows sheets keys fs
    return ((keys.get? f.id).getD f.id, written) :: rest

def property (v : Variable) : String × Json :=
  (v.name, .obj [("type", .str v.type.name), ("value", v.initial.toJson)])

def characters (sheets : List Sheet) : Json :=
  .obj (Fields.table (sheets.map fun s =>
    (s.shortcut, .obj [("name", .str s.name),
      ("properties", .obj (Fields.table (s.vars.map property)))])))

/-- The key of a variable in the table of variables. -/
def variableKey (v : Variable) : String :=
  Text.identifier v.fullRef

def variableTable (sheets : List Sheet) : Json :=
  .obj (Fields.table ((variablesOf sheets).map fun v =>
    (variableKey v, .obj [("type", .str v.type.name), ("default", v.initial.toJson),
      ("source", .str v.fullRef)])))

def document (o : Options) (p : Project) : Noted Json := do
  let flows ← flows p.sheets (UniqueKeys.ofList p.flows Flow.id Flow.handle) p.flows
  return .obj [("format", .str "godot_dialogue"), ("version", .str formatVersion),
    ("exporter_version", .str o.version), ("characters", characters p.sheets),
    ("variables", variableTable p.sheets), ("flows", .obj (Fields.table flows))]

/-- The Godot export of a project. -/
def output (o : Options) (p : Project) : Noted Output := do
  return .text ((← document o p).text o.prettyPrint)

end StoryFlow.Godot
