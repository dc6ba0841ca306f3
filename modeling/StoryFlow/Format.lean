/-! # Export formats

The formats that a project can be exported to, with what is said about each of them.
-/

namespace StoryFlow

inductive Format where
  | native | ink | yarn | unity | godot | unreal | articy
deriving DecidableEq

/-- The parts of a project that can be left out of an export. -/
inductive Part where
  | sheets | flows | scenes | screenplays | localization | assets
deriving DecidableEq

def Part.name : Part → String
  | sheets => "sheets"
  | flows => "flows"
  | scenes => "scenes"
  | screenplays => "screenplays"
  | localization => "localization"
  | assets => "assets"

def Part.all : List Part :=
  [sheets, flows, scenes, screenplays, localization, assets]

namespace Format

def all : List Format :=
  [native, ink, yarn, unity, godot, unreal, articy]

def name : Format → String
  | native => "native"
  | ink => "ink"
  | yarn => "yarn"
  | unity => "unity"
  | godot => "godot"
  | unreal => "unreal"
  | articy => "articy"

def ofName? (s : String) : Option Format :=
  all.find? (·.name == s)

def label : Format → String
  | native => "Native project JSON"
  | ink => "Ink (.ink)"
  | yarn => "Yarn Spinner (.yarn)"
  | unity => "Unity Dialogue System (JSON)"
  | godot => "Godot Dialogue (JSON)"
  | unreal => "Unreal Engine (CSV)"
  | articy => "articy:draft (XML)"

def contentType : Format → String
  | native | unity | godot => "application/json"
  | ink | yarn => "text/plain"
  | unreal => "text/csv"
  | articy => "application/xml"

/-- The ending of a file name, without the point. -/
def fileEnding : Format → String
  | native | unity | godot => "json"
  | ink => "ink"
  | yarn => "yarn"
  | unreal => "csv"
  | articy => "xml"

/-- The parts that a format can write. -/
def parts : Format → List Part
  | native => Part.all
  | _ => [.flows, .sheets]

end Format

/-- The version that is written into every header. -/
def formatVersion : String := "1.0.0"

end StoryFlow
