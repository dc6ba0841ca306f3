import StoryFlow.Csv
import StoryFlow.Expr.Assignment
import StoryFlow.Expr.Compile
import StoryFlow.Graph.Index
import StoryFlow.Json.Printer
import StoryFlow.Options
import StoryFlow.Output
import StoryFlow.UniqueKeys
import StoryFlow.Variable

/-! # Unreal data tables

Lines of dialogue, characters and variables as tables, and the graph of the conversations as a
document. Rows are numbered through the whole export; nodes of an unknown kind have none, and
links lead only to rows that are written.
-/

namespace StoryFlow.Unreal

def rowName (n : Nat) : String :=
  "DLG_" ++ Text.fourDigits n

def responseRowName (name : String) (i : Nat) : String :=
  name ++ "_R" ++ toString i

/-- The identifier that a conversation asks for. -/
def conversationId (f : Flow) : String :=
  let own := Text.identifier f.handle
  if own = "" then "flow_" ++ f.id else own

/-- A row of the table of lines. -/
structure Row where
  name : String
  conversation : String
  kind : String
  speaker : String
  text : String
  textKey : String
  menuText : String
  stageDirections : String
  sequence : Nat
  next : List String
  conditions : String
  script : String
deriving DecidableEq

def Row.header : List String :=
  ["Name", "ConversationId", "NodeType", "SpeakerId", "Text", "TextKey", "MenuText",
    "StageDirections", "Sequence", "NextLines", "Conditions", "UserScript"]

def Row.fields (r : Row) : List Csv.Field :=
  [.text r.name, .text r.conversation, .text r.kind, .text r.speaker, .text r.text,
    .text r.textKey, .text r.menuText, .text r.stageDirections, .ofNat r.sequence,
    .text ("|".intercalate r.next), .text r.conditions, .text r.script]

/-- What the rows of a flow depend on: the names of its rows by node, and its graph. -/
structure Context where
  sheets : List Sheet
  conversation : String
  names : List (String × String)
  index : Index

def condition (stored : Option Json) : Noted String := do
  return (← Condition.guard? .unreal stored).getD ""

def script (assignments : List Json) : Noted String :=
  Assignment.script .unreal assignments

/-- The rows that edges lead to. -/
def rowsOf (cx : Context) (edges : List Edge) : List String :=
  edges.filterMap fun e => cx.names.lookup e.target

/-- The key of a text: the name of its row in lower case. -/
def textKey (name : String) : String :=
  Text.onChars (·.map Char.toLower) name

def responseRows (cx : Context) (n : Node) (sequence : Nat) (name : String) :
    Nat → List Response → Noted (List Row)
  | _, [] => pure []
  | i, r :: rs => do
    let conditions ← condition r.condition
    let script ← script r.assignments
    let own := responseRowName name i
    let row : Row := {
      name := own, conversation := cx.conversation, kind := "response", speaker := ""
      text := Markup.strip r.text, textKey := textKey own
      menuText := Markup.strip (r.menuText.getD r.text), stageDirections := "", sequence
      next := rowsOf cx (cx.index.outgoingAt n.id r.pin), conditions, script }
    let rest ← responseRows cx n sequence name (i + 1) rs
    return row :: rest

/-- The rows of a node. -/
def nodeRows (cx : Context) (n : Node) (sequence : Nat) : Noted (List Row) :=
  let name := (cx.names.lookup n.id).getD ""
  let next := rowsOf cx (cx.index.outgoing n.id)
  let simple (kind text conditions script : String) : Row := {
    name, conversation := cx.conversation, kind, speaker := "", text, textKey := ""
    menuText := "", stageDirections := "", sequence, next, conditions, script }
  match n.body with
  | .dialogue d => do
    let conditions ← condition d.condition
    let responses ← responseRows cx n sequence name 1 d.responses
    let line : Row := {
      name, conversation := cx.conversation, kind := "dialogue"
      speaker := ((d.speakerIn cx.sheets).map Sheet.shortcut).getD "", text := d.spoken
      textKey := textKey name, menuText := d.menuText.getD ""
      stageDirections := Markup.strip? d.stageDirections, sequence
      next := if responses.isEmpty then next else responses.map Row.name
      conditions, script := "" }
    return line :: responses
  | .branching b => do return [simple "condition" "" (← condition b.condition) ""]
  | .instruction assignments => do return [simple "instruction" "" "" (← script assignments)]
  | .hub h => pure [simple "hub" (h.label.getD "") "" ""]
  | .jump j => pure [simple "jump" "" "" ((j.hub <|> j.flowShortcut).getD "")]
  | .scene s => pure [simple "scene" (s.place.getD "") "" ""]
  | .subflow s => pure [simple "subflow" (s.flowShortcut.getD "") "" ""]
  | .entry => pure [simple "entry" "" "" ""]
  | .exit technicalId => pure [{ simple "exit" (technicalId.getD "") "" "" with next := [] }]
  | .unknown => pure []

/-- Nodes of a known kind have rows. -/
def hasRow (n : Node) : Bool :=
  n.body ≠ .unknown

/-- The names of the rows of a flow, numbered after `n`. -/
def rowNames (n : Nat) (f : Flow) : List (String × String) :=
  Assoc.ofPairs (((f.nodes.filter hasRow).zipIdx (n + 1)).map fun (node, i) => (node.id, rowName i))

def nodesRows (cx : Context) : Nat → List Node → Noted (List Row)
  | _, [] => pure []
  | sequence, n :: ns => do
    let rows ← nodeRows cx n sequence
    let rest ← nodesRows cx (sequence + 1) ns
    return rows ++ rest

def flowRows (sheets : List Sheet) (conversations : UniqueKeys) (n : Nat) (f : Flow) :
    Noted (List Row) :=
  nodesRows ⟨sheets, (conversations.get? f.id).getD (conversationId f), rowNames n f, f.index⟩
    0 f.nodes

/-- The rows of all flows, numbered after `n`. -/
def rows (sheets : List Sheet) (conversations : UniqueKeys) : Nat → List Flow → Noted (List Row)
  | _, [] => pure []
  | n, f :: fs => do
    let own ← flowRows sheets conversations n f
    let rest ← rows sheets conversations (n + (f.nodes.filter hasRow).length) fs
    return own ++ rest

def characterTable (sheets : List Sheet) : String :=
  Csv.write ["Name", "DisplayName", "ShortcutId", "Properties"] (sheets.map fun s =>
    [.text ("CHAR_" ++ Text.identifier s.shortcut), .text s.name, .text s.shortcut,
      .text (Json.obj (Fields.table (s.vars.map fun v =>
        (v.name, v.initial.toJson)))).compact])

/-- The id of a variable in the table of variables. -/
def variableId (v : Variable) : String :=
  v.fullRef

def variableTable (vars : List Variable) : String :=
  Csv.write ["Name", "VariableId", "Type", "DefaultValue", "SheetShortcut", "VariableName"]
    (vars.map fun v =>
      [.text ("VAR_" ++ Text.identifier v.fullRef), .text (variableId v), .text v.type.name,
        .text v.initial.write, .text v.sheet, .text v.name])

def conversation (f : Flow) : Json :=
  let index := f.index
  .obj [("name", .str f.name), ("shortcut", .ofOption .str f.shortcut),
    ("start_node", .ofOption (fun n => .str n.id) index.entry),
    ("nodes", .obj (Fields.table (f.nodes.map fun n =>
      (n.id, .obj [("type", .str n.type),
        ("outputs", .arr ((index.outgoing n.id).map fun e => .str e.target))]))))]

/-- The graph of the conversations, and the characters and variables under their names. -/
def graph (conversations : UniqueKeys) (p : Project) : Json :=
  .obj [("format", .str "unreal_data_tables"), ("version", .str formatVersion),
    ("conversations", .obj (Fields.table (p.flows.map fun f =>
      ((conversations.get? f.id).getD (conversationId f), conversation f)))),
    ("characters", .obj (Fields.table (p.sheets.map fun s =>
      (Text.identifier s.shortcut,
        .obj [("display_name", .str s.name), ("shortcut", .str s.shortcut)])))),
    ("variables", .obj (Fields.table ((variablesOf p.sheets).map fun v =>
      (v.fullRef, .obj [("type", .str v.type.name), ("default", v.initial.toJson)]))))]

/-- The Unreal export of a project. -/
def output (o : Options) (p : Project) : Noted Output := do
  let conversations := UniqueKeys.ofList p.flows Flow.id conversationId
  let rows ← rows p.sheets conversations 0 p.flows
  return .files [
    ⟨"DT_DialogueLines.csv", Csv.write Row.header (rows.map Row.fields)⟩,
    ⟨"DT_Characters.csv", characterTable p.sheets⟩,
    ⟨"DT_Variables.csv", variableTable (variablesOf p.sheets)⟩,
    ⟨"Conversations.json", (graph conversations p).text o.prettyPrint⟩]

end StoryFlow.Unreal
