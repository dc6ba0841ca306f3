import StoryFlow.Expr.Assignment
import StoryFlow.Expr.Compile
import StoryFlow.Graph.Index
import StoryFlow.Json.Printer
import StoryFlow.Options
import StoryFlow.Output
import StoryFlow.Variable

/-! # Unity dialogue databases

Sheets become actors, and flows become conversations with numbered entries: the nodes first, in
their order, then the responses of all lines. Links are numbers of entries of the same
conversation.
-/

namespace StoryFlow.Unity

/-- What an entry says besides its place in the conversation. -/
inductive EntryBody where
  | plain
  | logic (conditions script : String)
  | line (actor : Nat) (text menuText conditions stageDirections : String)
  | response (id text menuText conditions script : String)
deriving DecidableEq

structure Entry where
  id : Nat
  nodeId : String
  nodeType : String
  isRoot : Bool
  isGroup : Bool
  links : List Nat
  body : EntryBody
deriving DecidableEq

def Entry.base (e : Entry) : Fields :=
  [("id", .ofNat e.id), ("node_id", .str e.nodeId), ("node_type", .str e.nodeType),
    ("is_root", .bool e.isRoot), ("is_group", .bool e.isGroup),
    ("links_to", .arr (e.links.map .ofNat))]

def Entry.toJson (e : Entry) : Json :=
  match e.body with
  | .plain => .obj e.base
  | .logic conditions script =>
    .obj (e.base ++ [("conditions", .str conditions), ("user_script", .str script)])
  | .line actor text menuText conditions stageDirections =>
    .obj (e.base ++ [("actor_id", .ofNat actor), ("dialogue_text", .str text),
      ("menu_text", .str menuText), ("conditions", .str conditions), ("user_script", .str ""),
      ("stage_directions", .str stageDirections)])
  | .response id text menuText conditions script =>
    .obj [("id", .ofNat e.id), ("node_id", .str e.nodeId), ("response_id", .str id),
      ("node_type", .str e.nodeType), ("is_root", .bool e.isRoot), ("is_group", .bool e.isGroup),
      ("actor_id", .ofNat 0), ("dialogue_text", .str text), ("menu_text", .str menuText),
      ("conditions", .str conditions), ("user_script", .str script),
      ("links_to", .arr (e.links.map .ofNat))]

/-- The compiled condition, empty when there is none. -/
def condition (stored : Option Json) : Noted String := do
  return (← Condition.guard? .unity stored).getD ""

def script (assignments : List Json) : Noted String :=
  Assignment.script .unity assignments

/-- The number of the entry of a node. -/
def entryId? (f : Flow) (id : String) : Option Nat :=
  Assoc.lastPosition? Node.id f.nodes id

/-- The entries that edges lead to. -/
def links (f : Flow) (edges : List Edge) : List Nat :=
  edges.filterMap fun e => entryId? f e.target

/-- The entries of the responses of a node, numbered from `first` on. -/
def responses (f : Flow) (index : Index) (n : Node) : Nat → List Response → Noted (List Entry)
  | _, [] => pure []
  | first, r :: rs => do
    let conditions ← condition r.condition
    let script ← script r.assignments
    let entry : Entry := {
      id := first, nodeId := n.id, nodeType := "response", isRoot := false, isGroup := false
      links := links f (index.outgoingAt n.id r.pin)
      body := .response r.id (Markup.strip r.text) (Markup.strip (r.menuText.getD r.text))
        conditions script }
    let rest ← responses f index n (first + 1) rs
    return entry :: rest

/-- The number of the actor that speaks a line, zero for nobody. -/
def actorId (sheets : List Sheet) (d : Dialogue) : Nat :=
  (d.speaker.bind (Assoc.lastPosition? Sheet.id sheets)).getD 0

/-- The entry with a number for a node, and those of its responses, numbered from `first` on. -/
def nodeEntries (sheets : List Sheet) (f : Flow) (index : Index) (id first : Nat) (n : Node) :
    Noted (List Entry) :=
  let entry : Entry := {
    id := id, nodeId := n.id, nodeType := n.type
    isRoot := n.isEntry, isGroup := n.isEntry || n.hub?.isSome
    links := links f (index.outgoing n.id), body := .plain }
  match n.body with
  | .dialogue d => do
    let responses ← responses f index n first d.responses
    let conditions ← condition d.condition
    let line := { entry with
      links := if responses.isEmpty then entry.links else responses.map Entry.id
      body := .line (actorId sheets d) d.spoken (d.menuText.getD "") conditions
        (Markup.strip? d.stageDirections) }
    return line :: responses
  | .branching b => do
    let conditions ← condition b.condition
    return [{ entry with body := .logic conditions "" }]
  | .instruction assignments => do
    let script ← script assignments
    return [{ entry with body := .logic "" script }]
  | _ => pure [entry]

def responseCount (n : Node) : Nat :=
  match n.body with
  | .dialogue d => d.responses.length
  | _ => 0

/-- The entries of the nodes from the one with number `id` on. -/
def entriesFrom (sheets : List Sheet) (f : Flow) (index : Index) :
    Nat → Nat → List Node → Noted (List Entry)
  | _, _, [] => pure []
  | id, first, n :: ns => do
    let entries ← nodeEntries sheets f index id first n
    let rest ← entriesFrom sheets f index (id + 1) (first + responseCount n) ns
    return entries ++ rest

/-- The entries of a conversation. -/
def entries (sheets : List Sheet) (f : Flow) : Noted (List Entry) :=
  entriesFrom sheets f f.index 1 (f.nodes.length + 1) f.nodes

def conversations (sheets : List Sheet) : Nat → List Flow → Noted (List Json)
  | _, [] => pure []
  | id, f :: fs => do
    let entries ← entries sheets f
    let conversation := Json.obj [("id", .ofNat id), ("title", .str f.name),
      ("shortcut", .ofOption .str f.shortcut), ("entries", .arr (entries.map Entry.toJson))]
    let rest ← conversations sheets (id + 1) fs
    return conversation :: rest

def actors (sheets : List Sheet) : List Json :=
  (sheets.zipIdx 1).map fun (s, id) =>
    .obj [("id", .ofNat id), ("name", .str s.name), ("shortcut", .str s.shortcut),
      ("fields", .obj (Fields.table (s.vars.map fun v => (v.name, v.initial.toJson))))]

/-- The name of a variable in the table of variables. -/
def variableName (v : Variable) : String :=
  v.fullRef

def variableTable (sheets : List Sheet) : List Json :=
  (variablesOf sheets).map fun v =>
    .obj [("name", .str (variableName v)), ("type", .str v.type.name),
      ("initial_value", v.initial.toJson)]

def document (o : Options) (p : Project) : Noted Json := do
  let conversations ← conversations p.sheets 1 p.flows
  return .obj [("format", .str "unity_dialogue_system"), ("version", .str formatVersion),
    ("exporter_version", .str o.version),
    ("database", .obj [("actors", .arr (actors p.sheets)), ("conversations", .arr conversations),
      ("variables", .arr (variableTable p.sheets))])]

/-- The Unity export of a project. -/
def output (o : Options) (p : Project) : Noted Output := do
  return .text ((← document o p).text o.prettyPrint)

end StoryFlow.Unity
