import StoryFlow.Expr.Assignment
import StoryFlow.Text.Markup
import StoryFlow.Validate.Graph

/-! # Checks of content and references

Lines without text or speaker, references that lead nowhere, strings that are not translated, and
sheets that nothing refers to.
-/

namespace StoryFlow.Validate

/-- The lines of all flows with their places. -/
def dialogues (flows : List Flow) : List (NodeRef × Dialogue) :=
  flows.flatMap fun f => f.nodes.filterMap fun n =>
    match n.body with
    | .dialogue d => some (n.ref f, d)
    | _ => none

def emptyDialogues (flows : List Flow) : List Finding :=
  ((dialogues flows).filter fun p => Markup.strip p.2.text == "").map fun p => .emptyDialogue p.1

def missingSpeakers (flows : List Flow) : List Finding :=
  ((dialogues flows).filter fun p => p.2.speaker.isNone).map fun p => .missingSpeaker p.1

/-! ## References -/

/-- The references by which a jump finds the hubs of a flow: their ids and their keys. -/
def hubRefs (f : Flow) : List String :=
  f.nodes.flatMap fun n => n.hub?.toList.flatMap fun h => n.id :: h.key.toList

def brokenHubs (f : Flow) : List Finding :=
  f.nodes.filterMap fun n =>
    match n.body with
    | .jump j => (j.hub.filter fun ref => !(ref ∈ hubRefs f)).map (.brokenReference (n.ref f) .hub)
    | _ => none

/-- The part of a subflow's target that names no flow: its id, or else its shortcut. -/
def brokenTarget (flows : List Flow) (s : Subflow) : Option String :=
  (s.flowId.filter fun id => !flows.any (·.id == id)) <|>
    s.flowShortcut.filter fun shortcut => !flows.any (given ·.shortcut == some shortcut)

def brokenFlows (flows : List Flow) (f : Flow) : List Finding :=
  f.nodes.filterMap fun n =>
    (n.subflow?.bind (brokenTarget flows)).map (.brokenReference (n.ref f) .flow)

def brokenScenes (scenes : List Entity) (f : Flow) : List Finding :=
  f.nodes.filterMap fun n =>
    match n.body with
    | .scene s =>
      (s.sceneId.filter fun id => !scenes.any (·.id == id)).map (.brokenReference (n.ref f) .scene)
    | _ => none

def brokenReferences (p : Project) : List Finding :=
  p.flows.flatMap brokenHubs ++ p.flows.flatMap (brokenFlows p.flows) ++
    p.flows.flatMap (brokenScenes p.scenes)

/-! ## Localized texts -/

/-- A text that is still to be translated. -/
def isUntranslated (t : LocalizedText) : Bool :=
  t.status == "pending" || t.status == "draft"

/-- The fields of the project that have localized texts. -/
def sources (l : Localization) : List (String × String × String) :=
  (l.strings.map fun t => (t.sourceType, t.sourceId, t.sourceField)).eraseDups

def pendingCount (l : Localization) (locale : String) : Nat :=
  l.strings.countP fun t => t.locale == locale && isUntranslated t

/-- The locales of the languages that are translated to. -/
def targetLocales (l : Localization) : List String :=
  (l.languages.filter (!·.isSource)).map Language.locale

def unfinishedLocales (l : Localization) : List Finding :=
  (targetLocales l).filterMap fun locale =>
    let pending := pendingCount l locale
    if pending = 0 then none
    else some (.unfinishedLocale locale pending (sources l).length)

/-! ## Sheets -/

def conditionRefs (stored : Option Json) : List String :=
  match Condition.read stored with
  | .ok (some c) => c.sheets
  | _ => []

def assignmentRefs (stored : List Json) : List String :=
  (Assignment.ofList stored).flatMap fun a => a.sheet :: (given a.valueSheet).toList

/-- The sheets that a node names: by id for a speaker, by shortcut otherwise. -/
def nodeRefs (n : Node) : List String :=
  match n.body with
  | .dialogue d =>
    d.speaker.toList ++ conditionRefs d.condition ++
      d.responses.flatMap fun r => conditionRefs r.condition ++ assignmentRefs r.assignments
  | .branching b => conditionRefs b.condition
  | .instruction assignments => assignmentRefs assignments
  | _ => []

def orphanSheets (sheets : List Sheet) (flows : List Flow) : List Finding :=
  let refs := flows.flatMap fun f => f.nodes.flatMap nodeRefs
  (sheets.filter fun s => !(s.id ∈ refs) && !(s.shortcut ∈ refs)).map fun s =>
    .orphanSheet s.id s.name

end StoryFlow.Validate

namespace StoryFlow

open Validate

/-- Runs all checks on a project. -/
def Project.validate (p : Project) : Validation :=
  ⟨missingEntries p.flows ++ orphanNodes p.flows ++ unreachableNodes p.flows ++
    emptyDialogues p.flows ++ missingSpeakers p.flows ++ circularSubflows p.flows ++
    brokenReferences p ++ unfinishedLocales p.localization ++ orphanSheets p.sheets p.flows⟩

end StoryFlow
