import StoryFlow.Assoc
import StoryFlow.Project.Basic
import StoryFlow.Text.Identifier
import StoryFlow.Text.Units

/-! # The graph of a flow

Nodes by id, hubs by id and outgoing edges by source. Of several nodes with one id the last
counts, in the place of the first. The edges of a source are ordered by their pins, and edges of
one pin keep the order of the connections.
-/

namespace StoryFlow

/-- The pin that a response is attached to. -/
def Response.pin (r : Response) : String :=
  "response_" ++ r.id

/-- The pin that a case is attached to. -/
def Case.pin (c : Case) (index : Nat) : String :=
  ((c.id <|> c.value)).getD ("case_" ++ toString index)

/-- The name of a case. -/
def Case.title (c : Case) (index : Nat) : String :=
  ((c.label <|> c.value)).getD ("case_" ++ toString index)

structure Edge where
  target : String
  pin : String
  connection : Connection
deriving DecidableEq

structure Index where
  nodes : List (String × Node)
  hubs : List (String × Hub)
  adjacency : List (String × List Edge)
  entry : Option Node
deriving DecidableEq

def Edge.ofConnection (c : Connection) : Edge :=
  ⟨c.target, c.sourcePin, c⟩

/-- The label of a hub: the identifier of its own label, or else of its id. -/
def Hub.labelAt (h : Hub) (id : String) : String :=
  let own := Text.identifier (h.label.getD "")
  if own = "" then Text.identifier ("hub_" ++ id) else own

namespace Index

def ofGraph (nodes : List Node) (connections : List Connection) : Index where
  nodes := Assoc.ofPairs (nodes.map fun n => (n.id, n))
  hubs := Assoc.ofPairs (nodes.filterMap fun n => n.hub?.map (n.id, ·))
  adjacency :=
    (Assoc.group Connection.source connections).map fun (source, cs) =>
      (source, Text.sortByUnits Edge.pin (cs.map Edge.ofConnection))
  entry := nodes.find? Node.isEntry

variable (index : Index)

def node? (id : String) : Option Node :=
  index.nodes.lookup id

def hub? (id : String) : Option Hub :=
  index.hubs.lookup id

/-- The edges that leave a node. -/
def outgoing (id : String) : List Edge :=
  (index.adjacency.lookup id).getD []

/-- The edges that leave a node from one pin. -/
def outgoingAt (id pin : String) : List Edge :=
  (index.outgoing id).filter (·.pin == pin)

/-- The hub that a reference names, by its id or else by its key. -/
def resolveHub (ref : String) : Option (String × Hub) :=
  match index.hub? ref with
  | some h => some (ref, h)
  | none => index.hubs.find? fun p => p.2.key == some ref

/-- The labels of all hubs. -/
def hubLabels : List String :=
  index.hubs.map fun p => p.2.labelAt p.1

end Index

def Flow.index (f : Flow) : Index :=
  Index.ofGraph f.nodes f.connections

end StoryFlow
