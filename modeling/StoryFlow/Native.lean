import StoryFlow.Assoc
import StoryFlow.Expr.Warning
import StoryFlow.Json.Printer
import StoryFlow.Options
import StoryFlow.Output

/-! # Native exports

The whole project as one document. Sections that are left out of an export are missing from it.
The assignments of a response, which may be stored as text, are written as a list, and localized
texts are grouped by the field that they translate.
-/

namespace StoryFlow.Native

def optional (s : Option String) : Json :=
  .ofOption .str s

def tableOf (b : Block) : Json :=
  match b.table with
  | some (some fs) => .obj fs
  | _ => .obj [("columns", .arr []), ("rows", .arr [])]

def block (b : Block) : Json :=
  .obj ([("id", .str b.id), ("type", .str b.type),
    ("position", .ofOption .num (b.position.bind id)), ("config", .obj b.config),
    ("value", .obj b.value), ("is_constant", .bool b.isConstant),
    ("variable_name", optional b.variableName)] ++
    if b.type = "table" then [("table_data", tableOf b)] else [])

def sheet (s : Sheet) : Json :=
  .obj [("id", .str s.id), ("shortcut", .str s.shortcut), ("name", .str s.name),
    ("description", optional s.description), ("color", optional s.color),
    ("parent_id", optional s.parentId), ("blocks", .arr (s.blocks.map block))]

def response (r : Response) : Json :=
  .obj (Fields.set r.raw "instruction_assignments" (.arr r.assignments))

def nodeData (n : Node) : Fields :=
  match n.body with
  | .dialogue d => Fields.set n.data "responses" (.arr (d.responses.map response))
  | _ => n.data

def node (n : Node) : Json :=
  .obj [("id", .str n.id), ("type", .str n.type),
    ("position_x", .ofOption (fun p => .num p.1) n.position),
    ("position_y", .ofOption (fun p => .num p.2) n.position), ("data", .obj (nodeData n))]

def connection (c : Connection) : Json :=
  .obj [("id", optional c.id), ("source_node_id", .str c.source),
    ("source_pin", .str c.sourcePin), ("target_node_id", .str c.target),
    ("target_pin", optional c.targetPin), ("label", optional c.label)]

def flow (f : Flow) : Json :=
  .obj [("id", .str f.id), ("shortcut", optional f.shortcut), ("name", .str f.name),
    ("description", optional f.description), ("parent_id", optional f.parentId),
    ("is_main", .bool f.isMain), ("settings", .obj f.settings),
    ("nodes", .arr (f.nodes.map node)), ("connections", .arr (f.connections.map connection))]

/-! ## Localization -/

def localized (t : LocalizedText) : Json :=
  .obj [("translated_text", optional t.translatedText), ("status", .str t.status),
    ("vo_status", optional t.voiceStatus), ("translator_notes", optional t.translatorNotes),
    ("reviewer_notes", optional t.reviewerNotes), ("word_count", .ofOption .num t.wordCount),
    ("machine_translated", .bool t.isMachineTranslated)]

/-- The field of the project that a text translates. -/
def sourceOf (t : LocalizedText) : String × String × String :=
  (t.sourceType, t.sourceId, t.sourceField)

/-- One field with its translations; what is said about the source is taken from the first. -/
def textGroup : List LocalizedText → Option Json
  | [] => none
  | t :: ts =>
    some (.obj [("source_type", .str t.sourceType), ("source_id", .str t.sourceId),
      ("source_field", .str t.sourceField), ("source_text", optional t.sourceText),
      ("source_text_hash", optional t.sourceTextHash), ("speaker_sheet_id", optional t.speaker),
      ("translations", .obj (Fields.table ((t :: ts).map fun t => (t.locale, localized t))))])

/-- The term of the glossary that an entry translates. -/
def termOf (g : GlossaryEntry) : String × String :=
  (g.sourceTerm, g.sourceLocale)

def glossaryGroup : List GlossaryEntry → Option Json
  | [] => none
  | g :: gs =>
    some (.obj [("source_term", .str g.sourceTerm), ("source_locale", .str g.sourceLocale),
      ("translations", .obj (Fields.table ((g :: gs).map fun g =>
        (g.targetLocale, optional g.targetTerm)))),
      ("do_not_translate", .bool g.doNotTranslate), ("context", optional g.context)])

def language (l : Language) : Json :=
  .obj [("locale_code", .str l.locale), ("name", optional l.name), ("is_source", .bool l.isSource)]

/-- The locale of the first source language, English when there is none. -/
def sourceLocale (l : Localization) : String :=
  ((l.languages.find? Language.isSource).map Language.locale).getD "en"

def localization (l : Localization) : Json :=
  .obj [("source_language", .str (sourceLocale l)), ("languages", .arr (l.languages.map language)),
    ("strings", .arr ((Assoc.group sourceOf l.strings).filterMap fun g => textGroup g.2)),
    ("glossary", .arr ((Assoc.group termOf l.glossary).filterMap fun g => glossaryGroup g.2))]

/-! ## Document -/

def statistics (p : Project) : Json :=
  .obj [("sheet_count", .ofNat p.sheets.length), ("flow_count", .ofNat p.flows.length),
    ("node_count", .ofNat p.nodeCount),
    ("connection_count", .ofNat p.connectionCount),
    ("scene_count", .ofNat p.scenes.length),
    ("screenplay_count", .ofNat p.screenplays.length), ("asset_count", .ofNat p.assets.length)]

def info (p : ProjectInfo) : Json :=
  .obj [("id", .str p.id), ("name", .str p.name), ("slug", optional p.slug),
    ("description", optional p.description), ("settings", .obj p.settings)]

/-- The sections of a project that an export includes. -/
def sections (o : Options) (p : Project) : Fields :=
  let sheets := if o.includes .sheets then [("sheets", .arr (p.sheets.map sheet))] else []
  let flows := if o.includes .flows then [("flows", .arr (p.flows.map flow))] else []
  let scenes :=
    if o.includes .scenes then [("scenes", .arr (p.scenes.map Entity.toJson))] else []
  let screenplays :=
    if o.includes .screenplays then [("screenplays", .arr (p.screenplays.map Entity.toJson))] else []
  let localization :=
    if o.includes .localization then [("localization", localization p.localization)] else []
  let assets := o.assets.toList.map fun mode =>
    ("assets", .obj [("mode", .str mode.name), ("items", .arr (p.assets.map Asset.toJson))])
  sheets ++ flows ++ scenes ++ screenplays ++ localization ++ assets

def document (o : Options) (p : Project) : Json :=
  .obj ([("format", .str "narrative_export"), ("format_version", .str formatVersion),
    ("export_version", .str o.version), ("exported_at", .str o.exportedAt),
    ("project", info p.info)] ++ sections o p ++
    [("metadata", .obj [("statistics", statistics p)])])

/-- The native export of a project. -/
def output (o : Options) (p : Project) : Noted Output :=
  pure (.text ((document o p).text o.prettyPrint))

end StoryFlow.Native
