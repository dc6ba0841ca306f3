import StoryFlow.Articy
import StoryFlow.Filter
import StoryFlow.Godot
import StoryFlow.Ink.Document
import StoryFlow.Native
import StoryFlow.Project.Schema
import StoryFlow.Unity
import StoryFlow.Unreal
import StoryFlow.Validate.Reference
import StoryFlow.Yarn.Document

/-! # Exports

An export reads the options, then the project, checks the whole project and writes the part of it
that the options select. A project with errors is not written. What happens on the way is told as
events, in their order.
-/

namespace StoryFlow

/-- Writes a project as it is in the format of the options. -/
def Options.output (settings : Settings) (o : Options) (p : Project) : Noted Output :=
  match o.format with
  | .native => Native.output o p
  | .ink => Ink.output settings o p
  | .yarn => Yarn.output settings o p
  | .unity => Unity.output o p
  | .godot => Godot.output o p
  | .unreal => Unreal.output o p
  | .articy => Articy.output o p

/-- The files of an output; a text alone becomes one file with the given name. -/
def Output.filesNamed (name : String) : Output → List OutputFile
  | text content => [⟨name, content⟩]
  | files fs => fs

inductive ExportError where
  | badOptions (e : OptionsError)
  | badProject (issues : List Issue)
  | refused (v : Validation)
  | notImplemented (operation : String)
deriving DecidableEq

namespace ExportError

def code : ExportError → String
  | badOptions e => e.code
  | badProject _ => "INVALID_PROJECT"
  | refused _ => "VALIDATION_FAILED"
  | notImplemented _ => "NOT_IMPLEMENTED"

/-- The message of an error; none when the options hold a value that has no text. -/
def message? : ExportError → Option String
  | badOptions e => e.message?
  | badProject issues =>
    some ("Project data is invalid: " ++ (issues.head?.map Issue.text).getD "")
  | refused v => some ("Validation found " ++ toString v.errors.length ++ " error(s)")
  | notImplemented operation => some (operation ++ " is not implemented")

def details : ExportError → Json
  | badOptions e => e.details
  | badProject issues => .obj [("issues", .arr (issues.map fun i => .str i.text))]
  | refused v => .obj [("statistics", v.statistics)]
  | notImplemented operation => .obj [("operation", .str operation)]

end ExportError

/-- The format with a name. -/
def Format.named (name : String) : Except ExportError Format :=
  (ofName? name).elim (.error (.badOptions (.unknownFormat (.str name)))) .ok

/-- Writers build their output in memory and never write to a path of their own. -/
def Format.outputToFile (_ : Format) (_ : String) : Except ExportError Output :=
  .error (.notImplemented "serializeToFile")

def Options.ofStored (settings : Settings) (now : String) (stored : Option Json) :
    Except ExportError Options :=
  (Options.read settings now stored).mapError .badOptions

def Project.ofStored (stored : Option Json) : Except ExportError Project :=
  match Project.read stored with
  | .valid p => .ok p
  | .faulty issues => .error (.badProject issues)

/-- What was written, in numbers. -/
structure Summary where
  format : Format
  version : String
  flows : Nat
  nodes : Nat
  files : Nat
  bytes : Nat
  warnings : Nat
  validation : Option Status
deriving DecidableEq

def Summary.text (s : Summary) : String :=
  "[EXPORT][format=" ++ s.format.name ++ "] flows=" ++ toString s.flows ++ " files=" ++
    toString s.files ++ " bytes=" ++ toString s.bytes ++ " warnings=" ++ toString s.warnings

def Summary.toJson (s : Summary) : Json :=
  .obj [("format", .str s.format.name), ("flows", .ofNat s.flows), ("nodes", .ofNat s.nodes),
    ("files", .ofNat s.files), ("bytes", .ofNat s.bytes), ("warnings", .ofNat s.warnings),
    ("validation", .str ((s.validation.map Status.name).getD "skipped")),
    ("version", .obj [("format", .str formatVersion), ("app", .str s.version)])]

/-- What happens during an export. -/
inductive Event where
  | leftOut (f : Failure)
  | blocked (format : Format) (v : Validation)
  | exported (s : Summary)
  | measured (s : Summary)
deriving DecidableEq

namespace Event

/-- Is an event a warning, or is it told for information only? -/
def isWarning : Event → Bool
  | leftOut _ | blocked .. => true
  | exported _ | measured _ => false

def text : Event → String
  | leftOut _ => "[EXPORT][transpile]"
  | blocked .. => "[EXPORT]"
  | exported s => s.text
  | measured s => "[METRICS][format=" ++ s.format.name ++ "]"

def details? : Event → Option Json
  | leftOut f =>
    some (.obj [("dialect", .str f.dialect.name), ("code", .str f.error.code),
      ("message", .str f.error.message)])
  | blocked format v => some (.obj [("format", .str format.name), ("validation", v.statistics)])
  | exported _ => none
  | measured s => some s.toJson

end Event

/-- A project that was written. -/
structure Exported where
  format : Format
  files : List OutputFile
  warnings : List Warning
  validation : Option Validation
deriving DecidableEq

/-- The end of an export, and the events on the way to it. -/
structure Outcome where
  result : Except ExportError Exported
  events : List Event

namespace Exported

/-- Writes the selected part of a project that has been validated, if the options ask for it. -/
def ofProject (settings : Settings) (o : Options) (p : Project) (v : Option Validation) :
    Exported × Summary × List Event :=
  let selected := p.restrict o
  let output := o.output settings selected
  let files :=
    output.value.filesNamed (p.info.identifier ++ "." ++ o.format.fileEnding)
  let warnings := output.notes.warnings
  let summary : Summary :=
    { format := o.format, version := o.version, flows := selected.flows.length
      nodes := selected.nodeCount, files := files.length
      bytes := files.foldl (fun n f => n + f.content.utf8ByteSize) 0, warnings := warnings.length
      validation := v.map Validation.status }
  (⟨o.format, files, warnings, v⟩, summary, output.notes.failures.map .leftOut)

end Exported

/-- Exports a project that has been read. -/
def Project.exported (settings : Settings) (o : Options) (p : Project) : Outcome :=
  let v := if o.validateBeforeExport then some p.validate else none
  match v.filter (·.status = .errors) with
  | some failed => ⟨.error (.refused failed), [.blocked o.format failed]⟩
  | none =>
    let (exported, summary, failures) := Exported.ofProject settings o p v
    ⟨.ok exported,
      failures ++ [.exported summary] ++ if settings.metricsLog then [.measured summary] else []⟩

/-- Exports a stored project with stored options; faulty options are reported first. -/
def exportStored (settings : Settings) (now : String) (project options : Option Json) : Outcome :=
  match Options.ofStored settings now options with
  | .error e => ⟨.error e, []⟩
  | .ok o =>
    match Project.ofStored project with
    | .error e => ⟨.error e, []⟩
    | .ok p => p.exported settings o

end StoryFlow
