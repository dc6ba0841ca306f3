import StoryFlow.FreshName
import StoryFlow.Graph.Index
import StoryFlow.Graph.Step

/-! # Writing out a flow

The traversal follows the edges from the entry node. It never enters a node that is on the path to
it, and it writes a node with a body once: a second arrival becomes a divert to a join section,
and an arrival at a hub becomes a divert to the hub's section. Sections are written one after the
other while new ones are found.

The depth of the traversal is bounded by the number of nodes, since the nodes of a path differ,
and the number of sections by the number of hubs and nodes.
-/

namespace StoryFlow

/-- A section that is still to be written. -/
inductive Pending where
  | hub (id : String) (h : Hub)
  | join (node : Node) (label : String)
deriving DecidableEq

/-- What the traversal remembers between branches. -/
structure Progress where
  queue : List Pending
  hubsSeen : List String
  expanded : List String
  joinLabels : List (String × String)
  usedLabels : List String
deriving DecidableEq

/-- Writes steps and moves the progress on. -/
abbrev Emit := Progress → List Step × Progress

namespace Progress

/-- Asks for the section of a hub. -/
def addHub (id : String) (h : Hub) (p : Progress) : Progress :=
  if id ∈ p.hubsSeen then p
  else { p with hubsSeen := id :: p.hubsSeen, queue := p.queue ++ [.hub id h] }

/-- The label for the join section of a node that has none yet. -/
def newLabel (p : Progress) (id : String) : String :=
  freshName p.usedLabels (Text.identifier ("node_" ++ id))

/-- Asks for the join section of a node. -/
def addJoin (node : Node) (p : Progress) : String × Progress :=
  match p.joinLabels.lookup node.id with
  | some label => (label, p)
  | none =>
    let label := p.newLabel node.id
    (label, { p with
      usedLabels := label :: p.usedLabels
      joinLabels := (node.id, label) :: p.joinLabels
      queue := p.queue ++ [.join node label] })

end Progress

/-- A node with a body can be the start of a join section. -/
def Node.hasBody (n : Node) : Bool :=
  match n.body with
  | .dialogue _ | .branching _ | .instruction _ | .scene _ | .subflow _ => true
  | _ => false

namespace Linearize

/-- Visits the targets of the edges in turn. -/
def follow (visit : String → Emit) : List Edge → Emit
  | [], p => ([], p)
  | e :: es, p =>
    let first := visit e.target p
    let rest := follow visit es first.2
    (first.1 ++ rest.1, rest.2)

/-- The responses of a line from the given position on, each with what follows it. -/
def choices (index : Index) (visit : String → Emit) (id : String) : Nat → List Response → Emit
  | _, [], p => ([], p)
  | i, r :: rs, p =>
    let body := follow visit (index.outgoingAt id r.pin) p
    let rest := choices index visit id (i + 1) rs body.2
    (.choice id r i :: (body.1 ++ rest.1), rest.2)

/-- The cases of a branching from the given position on, each with what follows it. -/
def branches (index : Index) (visit : String → Emit) (id : String) (b : Branching) :
    Nat → List Case → Emit
  | _, [], p => ([], p)
  | i, c :: cs, p =>
    let body := follow visit (index.outgoingAt id (c.pin i)) p
    let rest := branches index visit id b (i + 1) cs body.2
    (.conditionBranch id b c i :: (body.1 ++ rest.1), rest.2)

/-- Puts steps in front. -/
def after (steps : List Step) (emit : Emit) : Emit := fun p =>
  let r := emit p
  (steps ++ r.1, r.2)

/-- The hub that a jump leads to: the one it names, or else the first that an edge leads to. -/
def jumpHub (index : Index) (id : String) (j : Jump) : Option (String × Hub) :=
  (j.hub.bind index.resolveHub) <|>
    (index.outgoing id).findSome? fun e => (index.hub? e.target).map (e.target, ·)

/-- The target of a jump: another flow, a hub, or `unknown`. -/
def jumpStep (index : Index) (id : String) (j : Jump) : Emit := fun p =>
  match j.flowShortcut with
  | some shortcut => ([.jump id j (Text.identifier shortcut)], p)
  | none =>
    match jumpHub index id j with
    | some (hubId, h) => ([.jump id j (h.labelAt hubId)], p.addHub hubId h)
    | none => ([.jump id j "unknown"], p)

/-- Writes out a node and what follows it. -/
def expand (index : Index) (visit : String → Emit) (node : Node) : Emit :=
  let id := node.id
  let onward := follow visit (index.outgoing id)
  match node.body with
  | .entry => onward
  | .exit _ => fun p => ([.exit id], p)
  | .dialogue d =>
    if d.responses.isEmpty then after [.dialogue id d] onward
    else fun p =>
      let r := choices index visit id 0 d.responses p
      (.dialogue id d :: .choicesStart id :: (r.1 ++ [.choicesEnd id]), r.2)
  | .branching b => fun p =>
    let r := branches index visit id b 0 b.cases p
    (.conditionStart id b :: (r.1 ++ [.conditionEnd id b]), r.2)
  | .instruction assignments => after [.instruction id assignments] onward
  | .scene s => after [.scene id s] onward
  | .subflow s => after [.subflow id s] onward
  | .hub h => fun p => ([.divert (h.labelAt id)], p.addHub id h)
  | .jump j => jumpStep index id j
  | .unknown => fun p => ([], p)

/-- Arrives at a node by a path of other nodes. -/
def visit (index : Index) : Nat → List String → String → Emit
  | 0, _, _, p => ([], p)
  | depth + 1, path, id, p =>
    match index.node? id with
    | none => ([], p)
    | some node =>
      if id ∈ path then
        (node.hub?.toList.map fun h => .divert (h.labelAt id), p)
      else if node.hasBody then
        if id ∈ p.expanded then
          let (label, p) := p.addJoin node
          ([.divert label], p)
        else
          expand index (visit index depth (id :: path)) node { p with expanded := id :: p.expanded }
      else expand index (visit index depth (id :: path)) node p

/-- Writes one section. -/
def writeSection (index : Index) (depth : Nat) (pending : Pending) (p : Progress) :
    Section × Progress :=
  match pending with
  | .hub id h =>
    let r := follow (visit index depth [id]) (index.outgoing id) p
    (⟨h.labelAt id, .hub, id, r.1⟩, r.2)
  | .join node label =>
    let r := expand index (visit index depth [node.id]) node p
    (⟨label, .join, node.id, r.1⟩, r.2)

/-- Writes the sections of the queue, which may grow meanwhile. -/
def drain (index : Index) (depth : Nat) : Nat → Progress → List Section
  | 0, _ => []
  | rounds + 1, p =>
    match p.queue with
    | [] => []
    | pending :: queue =>
      let r := writeSection index depth pending { p with queue := queue }
      r.1 :: drain index depth rounds r.2

def start (index : Index) : Progress :=
  ⟨[], [], [], [], index.hubLabels⟩

/-- The script of a graph with given bounds on the depth and on the number of sections. -/
def bounded (index : Index) (depth rounds : Nat) : LinearScript :=
  match index.entry with
  | none => ⟨[], []⟩
  | some entry =>
    let r := visit index depth [] entry.id (start index)
    ⟨r.1, drain index depth rounds r.2⟩

end Linearize

/-- The script of a graph. -/
def Index.linearize (index : Index) : LinearScript :=
  Linearize.bounded index (index.nodes.length + 1) (index.hubs.length + index.nodes.length)

def Flow.linearize (f : Flow) : LinearScript :=
  f.index.linearize

end StoryFlow
