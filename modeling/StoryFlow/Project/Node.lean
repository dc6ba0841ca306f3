import StoryFlow.Json.Reader
import StoryFlow.Number.Shortest

/-! # Nodes of a flow

A node carries free-form data that is interpreted once, by the node's type. Fields that are
missing or of the wrong kind take neutral values, and a type that is not known leaves the node
without a body.
-/

namespace StoryFlow

/-- A choice of the player after a line of dialogue. -/
structure Response where
  id : String
  text : String
  menuText : Option String
  condition : Option Json
  assignments : List Json
  raw : Fields
deriving DecidableEq

structure Case where
  id : Option String
  value : Option String
  label : Option String
deriving DecidableEq

structure Dialogue where
  text : String
  speaker : Option String
  stageDirections : Option String
  menuText : Option String
  technicalId : Option String
  condition : Option Json
  responses : List Response
deriving DecidableEq

/-- A branching on a condition. In switch mode each case names a rule of it. -/
structure Branching where
  condition : Option Json
  cases : List Case
  isSwitch : Bool
deriving DecidableEq

structure Hub where
  label : Option String
  key : Option String
  color : Option String
deriving DecidableEq

/-- A jump to a hub of the same flow or to another flow. -/
structure Jump where
  hub : Option String
  flowShortcut : Option String
deriving DecidableEq

structure Scene where
  location : Option String
  slugLine : Option String
  sceneId : Option String
deriving DecidableEq

/-- Where a scene takes place. -/
def Scene.place (s : Scene) : Option String :=
  s.location <|> s.slugLine

structure Subflow where
  flowShortcut : Option String
  flowId : Option String
deriving DecidableEq

inductive Body where
  | entry
  | exit (technicalId : Option String)
  | dialogue (d : Dialogue)
  | branching (b : Branching)
  | instruction (assignments : List Json)
  | hub (h : Hub)
  | jump (j : Jump)
  | scene (s : Scene)
  | subflow (s : Subflow)
  | unknown
deriving DecidableEq

structure Node where
  id : String
  type : String
  data : Fields
  position : Option (Number × Number)
  body : Body
deriving DecidableEq

def Body.kind : Body → String
  | entry => "entry"
  | exit _ => "exit"
  | dialogue _ => "dialogue"
  | branching _ => "condition"
  | instruction _ => "instruction"
  | hub _ => "hub"
  | jump _ => "jump"
  | scene _ => "scene"
  | subflow _ => "subflow"
  | unknown => "unknown"

/-- The responses of a dialogue. -/
def Body.responses : Body → List Response
  | dialogue d => d.responses
  | _ => []

def Node.isEntry (n : Node) : Bool :=
  n.body = .entry

def Node.hub? (n : Node) : Option Hub :=
  match n.body with
  | .hub h => some h
  | _ => none

def Node.subflow? (n : Node) : Option Subflow :=
  match n.body with
  | .subflow s => some s
  | _ => none

namespace Fields

/-- The text of a field: a text that is not empty, or a number. -/
def textOf (fs : Fields) (key : String) : Option String :=
  match fs.get? key with
  | some (.str s) => if s = "" then none else some s
  | some (.num n) => some n.text
  | _ => none

end Fields

/-- Assignments are stored as a list or as the text of one. -/
def assignmentsOf : Option Json → List Json
  | some (.arr items) => items
  | some (.str s) => ((Json.read? s).bind Json.items?).getD []
  | _ => []

/-- The first of two fields that is there and not `null`. -/
def Fields.either (fs : Fields) (first second : String) : Option Json :=
  match fs.get? first with
  | none | some .null => fs.get? second
  | some j => some j

/-- A response without an id takes its position in the stored list. -/
def Response.ofFields (index : Nat) (fs : Fields) : Response where
  id := (fs.textOf "id").getD (toString index)
  text := (fs.textOf "text").getD ""
  menuText := fs.textOf "menu_text"
  condition := fs.get? "condition"
  assignments := assignmentsOf (fs.either "instruction_assignments" "instruction")
  raw := fs

def Case.ofFields (fs : Fields) : Case :=
  ⟨fs.textOf "id", fs.textOf "value", fs.textOf "label"⟩

/-- The objects of a stored list, with their positions in it. -/
def objectsOf (stored : Option Json) : List (Fields × Nat) :=
  ((stored.bind Json.items?).getD []).zipIdx.filterMap fun (j, i) => j.fields?.map (·, i)

/-- The body of a node of the given type. -/
def Body.ofData (type : String) (data : Fields) : Body :=
  let text := data.textOf
  match type with
  | "entry" => entry
  | "exit" => exit (text "technical_id")
  | "dialogue" =>
    dialogue {
      text := (text "text").getD ""
      speaker := text "speaker_sheet_id"
      stageDirections := text "stage_directions"
      menuText := text "menu_text"
      technicalId := text "technical_id"
      condition := data.get? "condition"
      responses := (objectsOf (data.get? "responses")).map fun (fs, i) => Response.ofFields i fs }
  | "condition" =>
    branching {
      condition := data.get? "condition"
      cases := (objectsOf (data.get? "cases")).map fun (fs, _) => Case.ofFields fs
      isSwitch := data.get? "switch_mode" = some (.bool true) }
  | "instruction" => instruction (assignmentsOf (data.get? "assignments"))
  | "hub" => hub ⟨text "label", text "hub_id", text "color"⟩
  | "jump" => jump ⟨text "hub_id" <|> text "target_hub_id", text "target_flow_shortcut"⟩
  | "scene" => scene ⟨text "location", text "slug_line", text "scene_id"⟩
  | "subflow" => subflow ⟨text "flow_shortcut", text "target_flow_id"⟩
  | _ => unknown

/-- A node stands somewhere only when both coordinates are known. -/
def Node.ofStored (id type : String) (data : Fields) (x y : Option Number) : Node where
  id := id
  type := type
  data := data
  position := x.bind fun x => y.map fun y => (x, y)
  body := Body.ofData type data

end StoryFlow
