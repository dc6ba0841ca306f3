import StoryFlow.Format
import StoryFlow.Script.FlowNames
import StoryFlow.Text.Units
import StoryFlow.Variable
import StoryFlow.Expr.Warning

/-! # Metadata of scripts

A script comes with a document that maps the names of the project to those of the script, and
names the functions that the host has to provide.
-/

namespace StoryFlow

/-- The functions that warnings ask for, each once, in the order of names. -/
def requiredFunctions (warnings : List Warning) : List String :=
  Text.sortByUnits id (warnings.filterMap Warning.function?).eraseDups

/-- What distinguishes the metadata of two script languages. -/
structure MetadataStyle where
  versionKey : String
  characterKey : String
  variableRef : Variable → String

/-- The metadata document of a script. -/
def scriptMetadata (style : MetadataStyle) (p : Project) (names : FlowNames)
    (warnings : List Warning) : Json :=
  let keys := UniqueKeys.ofList p.flows Flow.id Flow.handle
  let functions := requiredFunctions warnings
  .ofFields ([
    (style.versionKey, .str formatVersion),
    ("project", .str p.info.name),
    ("characters", .obj (Fields.table (p.sheets.map fun s =>
      (s.shortcut, .obj [("name", .str s.name), (style.characterKey, .str s.name)])))),
    ("variable_mapping", .obj (Fields.table ((variablesOf p.sheets).map fun v =>
      (v.fullRef, .str (style.variableRef v))))),
    ("flow_mapping", .obj (Fields.table (p.flows.map fun f =>
      ((keys.get? f.id).getD f.id, .str ((names.byId.lookup f.id).getD "")))))] ++
    if functions.isEmpty then []
    else [("required_functions", .arr (functions.map .str))])

/-- Four spaces per level. -/
def indentation (depth : Nat) : String :=
  String.ofList (List.replicate (4 * depth) ' ')

/-- What is shown for a choice: its text, else its menu text, else dots. -/
def Response.label (r : Response) : String :=
  let text := Text.singleLine (Markup.strip r.text)
  let menu := Text.singleLine (Markup.strip? r.menuText)
  if text ≠ "" then text else if menu ≠ "" then menu else "..."

end StoryFlow
