import StoryFlow.Format
import StoryFlow.Json.Checked
import StoryFlow.Project.Basic
import StoryFlow.Settings

/-! # Options of an export

Options are read from an object of any fields. Flags and selections take every value; the format,
the version, the asset mode and the time of export may be wrong, and the first of them that is
wrong, in this order, decides the error.
-/

namespace StoryFlow

inductive AssetMode where
  | references | embedded | bundled
deriving DecidableEq

def AssetMode.name : AssetMode → String
  | references => "references"
  | embedded => "embedded"
  | bundled => "bundled"

def AssetMode.ofName? (s : String) : Option AssetMode :=
  [references, embedded, bundled].find? (·.name == s)

/-- All items, or those with the listed ids. -/
inductive Selection where
  | all
  | only (ids : List String)
deriving DecidableEq

def Selection.keeps : Selection → String → Bool
  | all, _ => true
  | only ids, id => id ∈ ids

structure Options where
  format : Format
  version : String
  includeSheets : Bool
  includeFlows : Bool
  includeScenes : Bool
  includeScreenplays : Bool
  includeLocalization : Bool
  /-- Assets are left out without a mode. -/
  assets : Option AssetMode
  languages : Selection
  flowIds : Selection
  sheetIds : Selection
  sceneIds : Selection
  validateBeforeExport : Bool
  prettyPrint : Bool
  exportedAt : String
deriving DecidableEq

def Options.includes (o : Options) : Part → Bool
  | .sheets => o.includeSheets
  | .flows => o.includeFlows
  | .scenes => o.includeScenes
  | .screenplays => o.includeScreenplays
  | .localization => o.includeLocalization
  | .assets => o.assets.isSome

inductive OptionsError where
  | notAnObject
  | unknownFormat (value : Json)
  | unknownAssetMode (value : Json)
  | badField (field : String) (fault : Fault)
deriving DecidableEq

namespace Json

mutual

/-- The text of a value inside a message: objects are not spelled out, and lists are spelled with
commas. An object with a field `toString` has no text of its own, so there is none. -/
def display? : Json → Option String
  | null => some "null"
  | bool b => some (if b then "true" else "false")
  | num n => some n.text
  | str s => some s
  | arr items => (displayItems? items).map (",".intercalate ·)
  | obj fields => if fields.any (·.1 == "toString") then none else some "[object Object]"

/-- The texts of list elements, where `null` is empty. -/
def displayItems? : List Json → Option (List String)
  | [] => some []
  | null :: items => (displayItems? items).map ("" :: ·)
  | j :: items => do
    let s ← display? j
    let rest ← displayItems? items
    some (s :: rest)

end

/-- Is the value taken for true where a flag is expected? -/
def isTruthy : Json → Bool
  | null => false
  | bool b => b
  | num n => n.isTruthy
  | str s => s ≠ ""
  | arr _ | obj _ => true

end Json

namespace OptionsError

def code : OptionsError → String
  | notAnObject | badField .. => "INVALID_OPTIONS"
  | unknownFormat _ => "INVALID_FORMAT"
  | unknownAssetMode _ => "INVALID_ASSET_MODE"

/-- The message of an error; none when the rejected value has no text. -/
def message? : OptionsError → Option String
  | notAnObject => some "Export options must be an object"
  | unknownFormat value => value.display?.map ("Unknown export format: " ++ ·)
  | unknownAssetMode value => value.display?.map ("Unknown asset mode: " ++ ·)
  | badField _ fault => some fault.message

def details : OptionsError → Json
  | notAnObject => .obj []
  | unknownFormat value | unknownAssetMode value => .obj [("value", value)]
  | badField field _ => .obj [("path", .arr [.str field])]

end OptionsError

namespace Options

/-- A missing flag and `null` take the default, and the texts `false` and `0` are false. -/
def readFlag (default : Bool) : Option Json → Bool
  | none | some .null => default
  | some (.str s) => s ≠ "false" && s ≠ "0" && s ≠ ""
  | some j => j.isTruthy

/-- The texts and numbers of a list; anything but a list selects all. -/
def readSelection : Option Json → Selection
  | some (.arr items) =>
    .only (items.filterMap fun
      | .str s => some s
      | .num n => some n.text
      | _ => none)
  | _ => .all

def readFormat : Option Json → Except OptionsError Format
  | none | some .null => .ok .native
  | some (.str s) => (Format.ofName? s).elim (.error (.unknownFormat (.str s))) .ok
  | some j => .error (.unknownFormat j)

def readAssets : Option Json → Except OptionsError (Option AssetMode)
  | none | some .null => .ok (some .references)
  | some (.bool false) => .ok none
  | some (.str s) =>
    (AssetMode.ofName? s).elim (.error (.unknownAssetMode (.str s))) fun m => .ok (some m)
  | some j => .error (.unknownAssetMode j)

/-- A text that may be missing, with a default for an empty one. -/
def readText (field default : String) : Option Json → Except OptionsError String
  | none | some .null => .ok default
  | some (.str s) => .ok (if s = "" then default else s)
  | some j => .error (.badField field (.mismatch .string j.kind))

/-- Reads the fields of an options object. The time stands for a missing time of export. -/
def ofFields (settings : Settings) (now : String) (fs : Fields) : Except OptionsError Options := do
  let format ← readFormat (fs.get? "format")
  let version ← readText "version" settings.version (fs.get? "version")
  let assets ← readAssets (fs.get? "include_assets")
  let exportedAt ← readText "exported_at" now (fs.get? "exported_at")
  return {
    format, version, assets, exportedAt
    includeSheets := readFlag true (fs.get? "include_sheets")
    includeFlows := readFlag true (fs.get? "include_flows")
    includeScenes := readFlag true (fs.get? "include_scenes")
    includeScreenplays := readFlag true (fs.get? "include_screenplays")
    includeLocalization := readFlag true (fs.get? "include_localization")
    languages := readSelection (fs.get? "languages")
    flowIds := readSelection (fs.get? "flow_ids")
    sheetIds := readSelection (fs.get? "sheet_ids")
    sceneIds := readSelection (fs.get? "scene_ids")
    validateBeforeExport := readFlag true (fs.get? "validate_before_export")
    prettyPrint := readFlag settings.prettyPrint (fs.get? "pretty_print") }

/-- Reads options; none at all are those of an empty object. -/
def read (settings : Settings) (now : String) : Option Json → Except OptionsError Options
  | none | some .null => ofFields settings now []
  | some (.obj fs) => ofFields settings now fs
  | some _ => .error .notAnObject

end Options

end StoryFlow
