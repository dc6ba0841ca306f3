import StoryFlow.Disk
import StoryFlow.Export
import StoryFlow.Json.Mend.Document

/-! # The command line

A command names a project file, a format and a folder. What it does is a plan: the lines it prints
and the files it writes, in order. A run does one after the other, up to the first that cannot be
done.
-/

namespace StoryFlow

structure Command where
  input : String
  format : String
  folder : String
  validates : Bool
deriving DecidableEq

namespace Command

/-- The value of an option: what stands between its first two equals signs. -/
def optionValue? (name : String) (args : List String) : Option String :=
  (args.find? (·.startsWith (name ++ "="))).bind fun arg =>
    ((Text.pieces '=' arg.toList)[1]?).map String.ofList

/-- Reads arguments. The first one that is no option names the project file. -/
def ofArgs? (args : List String) : Option Command := do
  let input ← args.find? fun arg => !arg.startsWith "--"
  if input = "" then none
  else
    some {
      input
      format := (optionValue? "--format" args).getD "native"
      folder := (optionValue? "--out" args).getD "export"
      validates := !args.contains "--no-validate" }

def usage : String :=
  "Usage: tsx scripts/export_project.ts <project.json> [--format=" ++
    "|".intercalate (Format.all.map Format.name) ++ "] [--out=dir] [--no-validate]"

def options (c : Command) : Json :=
  .obj [("format", .str c.format), ("validate_before_export", .bool c.validates)]

end Command

/-- A line that a command prints: an event of the export, a text, or what went wrong. -/
inductive ConsoleLine where
  | event (e : Event)
  | text (s : String)
  | failure (message : String)
deriving DecidableEq

/-- One thing that a command does. -/
inductive Deed where
  | print (line : ConsoleLine)
  | makeFolder (path : String)
  | write (file : OutputFile)
deriving DecidableEq

/-- What a command does, in order. A plan that does not succeed ends with code one. -/
structure Plan where
  deeds : List Deed
  succeeds : Bool
deriving DecidableEq

namespace Plan

/-- A plan that prints one line and ends. -/
def stopped (line : ConsoleLine) : Plan :=
  ⟨[.print line], false⟩

/-- The result of a validation and the findings that matter. -/
def validationLines (v : Validation) : List String :=
  ("Validation: " ++ v.status.name ++ " (errors=" ++ toString v.errors.length ++ " warnings=" ++
    toString v.warnings.length ++ " info=" ++ toString v.info.length ++ ")") ::
  (v.errors ++ v.warnings).map fun f =>
    "  [" ++ f.level.name ++ "] " ++ f.check ++ ": " ++ f.message

/-- The validation that an export comes with. -/
def validation? : Except ExportError Exported → Option Validation
  | .ok e => e.validation
  | .error (.refused v) => some v
  | .error _ => none

/-- Writes a file and tells so. -/
def saving (folder : String) (f : OutputFile) : List Deed :=
  let path := Path.join folder f.filename
  [.write ⟨path, f.content⟩, .print (.text ("Wrote " ++ path))]

/-- The end of a plan whose export is done. -/
def ofOutcome (folder : String) (o : Outcome) : Plan :=
  let told := o.events.map (.print <| .event ·) ++
    ((validation? o.result).toList.flatMap validationLines).map (.print <| .text ·)
  match o.result with
  | .error e => ⟨told ++ [.print (.text (e.code ++ ": " ++ e.message?.getD ""))], false⟩
  | .ok e =>
    ⟨told ++ .makeFolder folder :: e.files.flatMap (saving folder) ++
      e.warnings.map fun w => .print (.text ("  [transpile] " ++ w.message)), true⟩

/-- The plan of a command for the text of its project file. -/
def ofCommand (settings : Settings) (now : String) (c : Command) :
    Except FileError String → Plan
  | .error e => stopped (.failure e.message)
  | .ok text =>
    match Json.readMended text with
    | .error e => stopped (.failure e.message)
    | .ok project =>
      ofOutcome c.folder (exportStored settings now (some project) (some c.options))

/-- The plan of the command that the arguments ask for; `read` gives the texts of files. -/
def ofArgs (settings : Settings) (now : String) (args : List String)
    (read : String → Except FileError String) : Plan :=
  match Command.ofArgs? args with
  | none => stopped (.text Command.usage)
  | some c => ofCommand settings now c (read c.input)

end Plan

/-- The disk that a command works on, and the lines that it has printed, the last one first. -/
structure Session where
  disk : Disk
  printed : List ConsoleLine

namespace Session

def console (s : Session) : List ConsoleLine :=
  s.printed.reverse

def print (s : Session) (line : ConsoleLine) : Session :=
  { s with printed := line :: s.printed }

def perform (s : Session) : Deed → Except FileError Session
  | .print line => .ok (s.print line)
  | .makeFolder path => (s.disk.makeFolder path).map fun d => { s with disk := d }
  | .write f => (s.disk.write f).map fun d => { s with disk := d }

/-- Does what is asked for in turn. What cannot be done is told and ends the run; the answer says
whether all was done. -/
def performAll (s : Session) : List Deed → Session × Bool
  | [] => (s, true)
  | deed :: deeds =>
    match s.perform deed with
    | .ok s => s.performAll deeds
    | .error e => (s.print (.failure e.message), false)

/-- Runs the command that the arguments ask for; the answer says whether it succeeds. -/
def run (settings : Settings) (now : String) (args : List String) (d : Disk) : Session × Bool :=
  let plan := Plan.ofArgs settings now args d.read
  let (s, isDone) := performAll ⟨d, []⟩ plan.deeds
  (s, isDone && plan.succeeds)

end Session

end StoryFlow
