import StoryFlow.Graph.Linearize
import StoryFlow.Json.Printer
import StoryFlow.Options
import StoryFlow.Output
import StoryFlow.Yarn.Steps

/-! # Yarn exports

A flow becomes a node with its steps as lines, and one more node per section. Variables are
declared at the top of the first node, or in a node of their own where every flow has a file.
-/

namespace StoryFlow.Yarn

def declarationsTitle : String := "__declarations"

structure Node where
  title : String
  body : List Line
deriving DecidableEq

structure File where
  filename : String
  nodes : List Node
deriving DecidableEq

def writeNode (n : Nat) (node : Node) : String × Nat :=
  let body := writeLines n node.body
  ("title: " ++ node.title ++ "\ntags:\n---\n" ++ "\n".intercalate body.1 ++ "\n===\n", body.2)

def writeNodes (n : Nat) : List Node → List String × Nat
  | [] => ([], n)
  | node :: nodes =>
    let first := writeNode n node
    let rest := writeNodes first.2 nodes
    (first.1 :: rest.1, rest.2)

/-- Writes files with the tags numbered through all of them. -/
def writeFiles (n : Nat) : List File → List OutputFile
  | [] => []
  | f :: fs =>
    let nodes := writeNodes n f.nodes
    ⟨f.filename, "\n".intercalate nodes.1⟩ :: writeFiles nodes.2 fs

def variableRef (v : Variable) : String :=
  Dialect.yarn.reference v.sheet v.name

def declarations (vars : List Variable) : List Line :=
  vars.map fun v => ⟨0, .declaration (variableRef v) v.declaration⟩

/-- The lines that declare variables. -/
def declarationLines (vars : List Variable) : List String :=
  (declarations vars).map (Line.write 0)

def sectionNodes (cx : Context) : List Section → Noted (List Node)
  | [] => pure []
  | s :: ss => do
    let body ← lines cx s.steps
    let rest ← sectionNodes cx ss
    return ⟨sectionTitle cx.title s.label, body⟩ :: rest

/-- The nodes of a flow: its own, after a preamble, and those of its sections. -/
def flowNodes (sheets : List Sheet) (names : FlowNames) (preamble : List Line) (f : Flow) :
    Noted (List Node) := do
  let cx : Context := ⟨sheets, names, names.nameOf digitGuard f⟩
  let script := f.linearize
  let body ← lines cx script.main
  let sections ← sectionNodes cx script.sections
  return ⟨cx.title, preamble ++ body⟩ :: sections

/-- The nodes of all flows, the preamble in front of the first. -/
def allNodes (sheets : List Sheet) (names : FlowNames) :
    List Line → List Flow → Noted (List (Flow × List Node))
  | _, [] => pure []
  | preamble, f :: fs => do
    let nodes ← flowNodes sheets names preamble f
    let rest ← allNodes sheets names [] fs
    return (f, nodes) :: rest

def declarationNodes (vars : List Variable) : List Node :=
  if vars.isEmpty then [] else [⟨declarationsTitle, declarations vars⟩]

/-- One file for all flows, with the declarations at the top of the first node. -/
def singleFile (p : Project) (names : FlowNames) : Noted (List File) := do
  let vars := variablesOf p.sheets
  let flows ← allNodes p.sheets names (declarations vars) p.flows
  let lone := if p.flows.isEmpty then declarationNodes vars else []
  return [⟨p.info.identifier ++ ".yarn", flows.flatMap Prod.snd ++ lone⟩]

/-- A file per flow, and one for the declarations. -/
def manyFiles (p : Project) (names : FlowNames) : Noted (List File) := do
  let flows ← allNodes p.sheets names [] p.flows
  let declared := (declarationNodes (variablesOf p.sheets)).map fun n => ⟨"variables.yarn", [n]⟩
  return declared ++ flows.map fun (f, nodes) => ⟨names.nameOf digitGuard f ++ ".yarn", nodes⟩

def metadataStyle : MetadataStyle :=
  ⟨"yarn_metadata", "yarn_name", variableRef⟩

/-- The script files of a project; above the threshold every flow has a file of its own. -/
def scriptFiles (threshold : Nat) (p : Project) (names : FlowNames) : Noted (List File) :=
  if threshold < p.flows.length then manyFiles p names else singleFile p names

/-- The Yarn export of a project: its scripts and their metadata. -/
def output (settings : Settings) (o : Options) (p : Project) : Noted Output :=
  let names := FlowNames.ofFlows digitGuard p.flows
  let files := scriptFiles settings.multiFileThreshold p names
  let metadata := scriptMetadata metadataStyle p names files.notes.warnings
  ⟨.files (writeFiles 0 files.value ++ [⟨"metadata.json", metadata.text o.prettyPrint⟩]),
    files.notes⟩

end StoryFlow.Yarn
