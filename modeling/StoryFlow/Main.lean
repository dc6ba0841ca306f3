import Std.Time.DateTime
import Std.Time.Format
import StoryFlow.CommandLine

/-! # The program

Reads the project file and does what the command asks for.
-/

namespace StoryFlow

/-- Events that are no warnings go to the standard output, everything else to the error output. -/
def ConsoleLine.print : ConsoleLine → IO Unit
  | .event e =>
    let line := e.text ++ (e.details?.map fun d => " " ++ d.compact).getD ""
    if e.isWarning then IO.eprintln line else IO.println line
  | .text s => IO.eprintln s
  | .failure message => IO.eprintln ("Error: " ++ message)

/-- The cause that an error of the machine tells. -/
def FileCause.ofError : IO.Error → FileCause
  | .alreadyExists .. => .taken
  | .inappropriateType .. => .isFolder
  | _ => .missing

/-- Does something to the machine, and tells when it cannot be done. -/
def attempt {α : Type} (action : FileAction) (effect : IO α) : IO (Except FileError α) := do
  try return .ok (← effect)
  catch e => return .error ⟨.ofError e, action⟩

def Deed.perform : Deed → IO (Except FileError Unit)
  | .print line => return .ok (← line.print)
  | .makeFolder path => attempt (.makeFolder path) (IO.FS.createDirAll path)
  | .write f => attempt (.openFile f.filename) (IO.FS.writeFile f.filename f.content)

/-- Does what is asked for in turn, up to the first that cannot be done. -/
def performAll : List Deed → IO Bool
  | [] => return true
  | deed :: deeds => do
    match ← deed.perform with
    | .ok () => performAll deeds
    | .error e =>
      ConsoleLine.print (.failure e.message)
      return false

/-- The variables of the environment that settings are read from. -/
def readEnvironment : IO (String → Option String) := do
  let set ← Settings.variableNames.filterMapM fun name => do
    return (← IO.getEnv name).map fun value => (name, value)
  return fun name => set.lookup name

/-- The time of an export, to the millisecond. -/
def readClock : IO String := do
  let t ← Std.Time.Timestamp.now
  return (Std.Time.DateTime.ofTimestamp t Std.Time.TimeZone.ZoneRules.UTC).format
    "uuuu-MM-dd'T'HH:mm:ss.SSS'Z'"

/-- The text of the project file, or why there is none. -/
def readInput (args : List String) : IO (Except FileError String) :=
  match Command.ofArgs? args with
  | none => return .ok ""
  | some c => attempt (.openFile c.input) (IO.FS.readFile c.input)

end StoryFlow

open StoryFlow in
def main (args : List String) : IO UInt32 := do
  let settings := Settings.ofEnvironment (← readEnvironment)
  let text ← readInput args
  let plan := Plan.ofArgs settings (← readClock) args fun _ => text
  let isDone ← performAll plan.deeds
  return if isDone && plan.succeeds then 0 else 1
