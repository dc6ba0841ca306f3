import StoryFlow.Project.Node

/-! # Projects

A project holds sheets, whose blocks carry the variables of the story, flows, which are graphs of
nodes, scenes and screenplays, which are only passed on, its localization, and its assets.
-/

namespace StoryFlow

/-- A block of a sheet. Position and table may be missing or `null`, which are told apart. -/
structure Block where
  id : String
  type : String
  position : Option (Option Number)
  config : Fields
  value : Fields
  isConstant : Bool
  variableName : Option String
  table : Option (Option Fields)
deriving DecidableEq

structure Sheet where
  id : String
  shortcut : String
  name : String
  description : Option String
  color : Option String
  parentId : Option String
  blocks : List Block
deriving DecidableEq

structure Connection where
  id : Option String
  source : String
  sourcePin : String
  target : String
  targetPin : Option String
  label : Option String
deriving DecidableEq

structure Flow where
  id : String
  shortcut : Option String
  name : String
  description : Option String
  parentId : Option String
  isMain : Bool
  settings : Fields
  nodes : List Node
  connections : List Connection
deriving DecidableEq

/-- A scene or a screenplay: its names, and whatever else is stored with it. -/
structure Entity where
  id : String
  name : Option String
  shortcut : Option String
  extra : Fields
deriving DecidableEq

structure Language where
  locale : String
  name : Option String
  isSource : Bool
deriving DecidableEq

/-- The text of one field of the project in one locale. -/
structure LocalizedText where
  sourceType : String
  sourceId : String
  sourceField : String
  sourceText : Option String
  sourceTextHash : Option String
  speaker : Option String
  locale : String
  translatedText : Option String
  status : String
  voiceStatus : Option String
  translatorNotes : Option String
  reviewerNotes : Option String
  wordCount : Option Number
  isMachineTranslated : Bool
deriving DecidableEq

structure GlossaryEntry where
  sourceTerm : String
  sourceLocale : String
  targetTerm : Option String
  targetLocale : String
  doNotTranslate : Bool
  context : Option String
deriving DecidableEq

structure Localization where
  languages : List Language
  strings : List LocalizedText
  glossary : List GlossaryEntry
deriving DecidableEq

structure Asset where
  id : String
  filename : String
  contentType : Option String
  size : Option Number
  key : Option String
  url : Option String
  metadata : Fields
deriving DecidableEq

structure ProjectInfo where
  id : String
  name : String
  slug : Option String
  description : Option String
  settings : Fields
deriving DecidableEq

structure Project where
  info : ProjectInfo
  sheets : List Sheet
  flows : List Flow
  scenes : List Entity
  screenplays : List Entity
  localization : Localization
  assets : List Asset
deriving DecidableEq

def Localization.empty : Localization := ⟨[], [], []⟩

/-- A text that is there and not empty. -/
def given (s : Option String) : Option String :=
  s.filter (· ≠ "")

/-- What a flow is called in the first place: its shortcut, or else its name. -/
def Flow.handle (f : Flow) : String :=
  (given f.shortcut).getD f.name

def Project.nodeCount (p : Project) : Nat :=
  (p.flows.flatMap Flow.nodes).length

def Project.connectionCount (p : Project) : Nat :=
  (p.flows.flatMap Flow.connections).length

/-- The object that an entity is stored as. -/
def Entity.toJson (e : Entity) : Json :=
  Json.ofFields ([("id", .str e.id), ("name", .ofOption .str e.name),
    ("shortcut", .ofOption .str e.shortcut)] ++ e.extra)

def Asset.toJson (a : Asset) : Json :=
  .obj [("id", .str a.id), ("filename", .str a.filename),
    ("content_type", .ofOption .str a.contentType), ("size", .ofOption .num a.size),
    ("key", .ofOption .str a.key), ("url", .ofOption .str a.url), ("metadata", .obj a.metadata)]

end StoryFlow
