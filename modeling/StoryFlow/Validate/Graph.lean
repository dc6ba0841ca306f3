import StoryFlow.Assoc
import StoryFlow.Project.Basic
import StoryFlow.Validate.Finding

/-! # Checks of the graph

Flows without an entry, nodes without connections, nodes that no path of connections reaches from
an entry, and flows that lead into a cycle of subflows.
-/

namespace StoryFlow

def Flow.ref (f : Flow) : FlowRef := ⟨f.id, f.name⟩

def Node.ref (f : Flow) (n : Node) : NodeRef := ⟨f.ref, n.id, n.type⟩

namespace Validate

def missingEntries (flows : List Flow) : List Finding :=
  (flows.filter fun f => !f.nodes.any Node.isEntry).map fun f => .missingEntry f.ref

/-- Is the node at an end of a connection? -/
def isConnected (f : Flow) (n : Node) : Bool :=
  f.connections.any fun c => c.source == n.id || c.target == n.id

def isExit (n : Node) : Bool :=
  match n.body with
  | .exit _ => true
  | _ => false

def orphanNodes (flows : List Flow) : List Finding :=
  flows.flatMap fun f =>
    (f.nodes.filter fun n => !n.isEntry && !isExit n && !isConnected f n).map fun n =>
      .orphanNode (n.ref f)

/-- The ids of a list that are not visited yet, each once. -/
def unvisited (visited : List String) : List String → List String
  | [] => []
  | id :: ids =>
    if id ∈ visited then unvisited visited ids else id :: unvisited (id :: visited) ids

/-- Follows connections from the ids of a queue. Every id is queued at most once after the first
ones, so there are no more rounds than first ids and connections. -/
def spread (connections : List Connection) : Nat → List String → List String → List String
  | 0, _, visited => visited
  | _, [], visited => visited
  | rounds + 1, id :: queue, visited =>
    let targets := (connections.filter (·.source == id)).map Connection.target
    let fresh := unvisited visited targets
    spread connections rounds (queue ++ fresh) (visited ++ fresh)

/-- The ids that connections lead to from some ids. -/
def reachable (connections : List Connection) (starts : List String) : List String :=
  spread connections (starts.length + connections.length) starts starts

def entryIds (f : Flow) : List String :=
  (f.nodes.filter Node.isEntry).map Node.id

def unreachableIn (f : Flow) : List Finding :=
  let entries := entryIds f
  if entries.isEmpty then []
  else
    let reached := reachable f.connections entries
    (f.nodes.filter fun n => !n.isEntry && !(n.id ∈ reached)).map fun n =>
      .unreachableNode (n.ref f)

def unreachableNodes (flows : List Flow) : List Finding :=
  flows.flatMap unreachableIn

/-! ## Cycles of subflows -/

/-- The flows that the subflows of a flow lead to. -/
def subflowTargets (f : Flow) : List String :=
  f.nodes.filterMap fun n => n.subflow?.bind Subflow.flowId

/-- The flows that have subflows, with the flows that they lead to. -/
def subflowGraph (flows : List Flow) : List (String × List String) :=
  Assoc.ofPairs ((flows.map fun f => (f.id, subflowTargets f)).filter fun p => !p.2.isEmpty)

/-- Which flows are known to lead into a cycle, and which not. -/
abbrev Known := List (String × Bool)

/-- Asks for every target in turn whether it leads into a cycle. -/
def anyLeads (leads : String → Known → Bool × Known) : List String → Known → Bool × Known
  | [], known => (false, known)
  | id :: ids, known =>
    let first := leads id known
    let rest := anyLeads leads ids first.2
    (first.1 || rest.1, rest.2)

/-- Does a flow lead back to the path on which it was reached, or into another cycle? The ids of
a path differ and all but the last have subflows, which bounds the depth. -/
def leadsToCycle (graph : List (String × List String)) :
    Nat → List String → String → Known → Bool × Known
  | 0, _, _, known => (false, known)
  | depth + 1, path, id, known =>
    if id ∈ path then (true, known)
    else
      match known.lookup id with
      | some answer => (answer, known)
      | none =>
        let r := anyLeads (leadsToCycle graph depth (id :: path))
          ((graph.lookup id).getD []) known
        (r.1, (id, r.1) :: r.2)

/-- The ids of a list that lead into a cycle. -/
def circular (graph : List (String × List String)) : List String → Known → List String
  | [], _ => []
  | id :: ids, known =>
    let r := leadsToCycle graph (graph.length + 2) [] id known
    if r.1 then id :: circular graph ids r.2 else circular graph ids r.2

def circularSubflows (flows : List Flow) : List Finding :=
  let graph := subflowGraph flows
  (circular graph (graph.map Prod.fst) []).map fun id =>
    let name := ((flows.reverse.find? (·.id == id)).map Flow.name).getD "unknown"
    .circularSubflow ⟨id, name⟩

end Validate

end StoryFlow
