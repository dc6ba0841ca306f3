import StoryFlow.Graph.Linearize
import StoryFlow.Ink.Steps
import StoryFlow.Json.Printer
import StoryFlow.Options
import StoryFlow.Output

/-! # Ink exports

A flow becomes a knot, its sections become stitches, and the variables are declared in front of
everything. The story starts at the main flow.
-/

namespace StoryFlow.Ink

structure Stitch where
  name : String
  body : List Line
deriving DecidableEq

structure Knot where
  name : String
  body : List Line
  stitches : List Stitch
deriving DecidableEq

def variableRef (v : Variable) : String :=
  Dialect.ink.reference v.sheet v.name

/-- The lines that declare variables. -/
def declarationLines (vars : List Variable) : List String :=
  vars.map fun v => "VAR " ++ variableRef v ++ " = " ++ v.declaration

def Stitch.lines (s : Stitch) : List String :=
  "" :: ("= " ++ s.name) :: s.body.map Line.write

def Knot.lines (k : Knot) : List String :=
  ("=== " ++ k.name ++ " ===") :: (k.body.map Line.write ++ k.stitches.flatMap Stitch.lines)

/-- Lines, each with a line feed after it. -/
def endLines (lines : List String) : String :=
  "\n".intercalate lines ++ "\n"

def Knot.write (k : Knot) : String :=
  endLines k.lines

def stitches (cx : Context) : List Section → Noted (List Stitch)
  | [] => pure []
  | s :: ss => do
    let body ← lines cx s.steps
    let rest ← stitches cx ss
    return ⟨stitchName s.label, body⟩ :: rest

/-- The names of the flows that subflows lead to. -/
def tunnels (names : FlowNames) (flows : List Flow) : List String :=
  flows.flatMap fun f => f.nodes.filterMap fun n =>
    n.subflow?.bind fun s => given (names.resolve digitGuard s.flowTarget)

/-- The knot of a flow; one without lines of its own ends the story. -/
def knot (p : Project) (names : FlowNames) (f : Flow) : Noted Knot := do
  let cx : Context := ⟨p.sheets, names, tunnels names p.flows, names.nameOf digitGuard f⟩
  let script := f.linearize
  let body ← lines cx script.main
  let stitches ← stitches cx script.sections
  return ⟨cx.knot, if body.isEmpty then [⟨0, .divert ending⟩] else body, stitches⟩

def knots (p : Project) (names : FlowNames) : List Flow → Noted (List Knot)
  | [] => pure []
  | f :: fs => do
    let k ← knot p names f
    let rest ← knots p names fs
    return k :: rest

/-- The flow at which the story starts: the main one, else the first. -/
def startFlow (flows : List Flow) : Option Flow :=
  flows.find? Flow.isMain <|> flows.head?

/-- The divert to the start. -/
def startLines (names : FlowNames) (flows : List Flow) : List String :=
  (startFlow flows).toList.map fun f => "-> " ++ names.nameOf digitGuard f

/-- One file for all knots. -/
def singleFile (p : Project) (names : FlowNames) (knots : List Knot) : List OutputFile :=
  let header := declarationLines (variablesOf p.sheets)
  let gap := if header.isEmpty then [] else [""]
  let preamble := "\n".intercalate (header ++ gap ++ startLines names p.flows)
  let parts := (preamble :: knots.map Knot.write).filter (· ≠ "")
  [⟨p.info.identifier ++ ".ink", "\n".intercalate parts⟩]

/-- A file per knot, and one that includes them all. -/
def manyFiles (p : Project) (names : FlowNames) (knots : List Knot) : List OutputFile :=
  let header := declarationLines (variablesOf p.sheets)
  let includes := p.flows.map fun f => "INCLUDE " ++ names.nameOf digitGuard f ++ ".ink"
  let main := endLines (header ++ "" :: (includes ++ "" :: startLines names p.flows))
  ⟨"main.ink", main⟩ :: knots.map fun k => ⟨k.name ++ ".ink", k.write⟩

def metadataStyle : MetadataStyle :=
  ⟨"ink_metadata", "ink_name", variableRef⟩

/-- The script files of a project; above the threshold every flow has a file of its own. -/
def scriptFiles (threshold : Nat) (p : Project) (names : FlowNames) (knots : List Knot) :
    List OutputFile :=
  if threshold < p.flows.length then manyFiles p names knots else singleFile p names knots

/-- The Ink export of a project: its scripts and their metadata. -/
def output (settings : Settings) (o : Options) (p : Project) : Noted Output :=
  let names := FlowNames.ofFlows digitGuard p.flows
  let knots := knots p names p.flows
  let metadata := scriptMetadata metadataStyle p names knots.notes.warnings
  ⟨.files (scriptFiles settings.multiFileThreshold p names knots.value ++
    [⟨"metadata.json", metadata.text o.prettyPrint⟩]), knots.notes⟩

end StoryFlow.Ink
