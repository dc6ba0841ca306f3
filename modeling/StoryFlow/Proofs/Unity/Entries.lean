import Mathlib.Algebra.Ring.Nat
import Mathlib.Data.List.Perm.Basic
import StoryFlow.Proofs.Graph.Index
import StoryFlow.Unity

/-! # Entries of a conversation

The entries of a conversation come in blocks, one for each node: the entry of the node and those of
its responses. Nodes are numbered first and responses after them, so the numbers of a conversation
run from one without a gap, and a link is always the number of one of its entries.
-/

namespace StoryFlow.Unity

section Positions

variable {f : Flow} {n : Node} {id : String} {i : Nat}

theorem mem_zipIdx_of_entryId? (h : entryId? f id = some i) :
    ∃ n, (n, i) ∈ f.nodes.zipIdx 1 ∧ n.id = id := by
  rw [entryId?, Assoc.lastPosition?_eq_lookup] at h
  obtain ⟨p, hp, he⟩ := List.mem_map.mp (List.mem_reverse.mp (Assoc.mem_of_lookup h))
  obtain ⟨rfl, rfl⟩ := Prod.mk.inj he
  exact ⟨p.1, hp, rfl⟩

theorem entryId?_of_mem_zipIdx (hd : (f.nodes.map Node.id).Nodup) (h : (n, i) ∈ f.nodes.zipIdx 1) :
    entryId? f n.id = some i := by
  rw [entryId?, Assoc.lastPosition?_eq_lookup]
  apply Assoc.lookup_of_mem
  · have hids : ((f.nodes.zipIdx 1).map Prod.fst).map Node.id = f.nodes.map Node.id := by
      rw [List.zipIdx_map_fst]
    rw [List.map_map] at hids
    rw [List.map_reverse, List.nodup_reverse, List.map_map]
    exact hids ▸ hd
  · exact List.mem_reverse.mpr (List.mem_map.mpr ⟨(n, i), h, rfl⟩)

theorem mem_range_of_mem_links {edges : List Edge} (h : i ∈ links f edges) :
    i ∈ List.range' 1 f.nodes.length := by
  obtain ⟨e, -, he⟩ := List.mem_filterMap.mp h
  obtain ⟨n, hn, -⟩ := mem_zipIdx_of_entryId? he
  rw [← List.zipIdx_map_snd]
  exact List.mem_map_of_mem hn

end Positions

theorem responseCount_eq (n : Node) : responseCount n = n.body.responses.length := by
  unfold responseCount Body.responses
  cases n.body <;> rfl

/-- The response that an entry stands for. -/
def Entry.responseId? (e : Entry) : Option String :=
  match e.body with
  | .response id .. => some id
  | _ => none

/-- A node with its entry and those of its responses. -/
structure Block where
  node : Node
  line : Entry
  answers : List Entry

namespace Block

def entries (b : Block) : List Entry :=
  b.line :: b.answers

/-- The block of a node with the number `id` whose responses are numbered from `first` on. -/
structure Written (f : Flow) (index : Index) (id first : Nat) (b : Block) : Prop where
  line_id : b.line.id = id
  node_ids : ∀ e ∈ b.entries, e.nodeId = b.node.id
  response_ids : b.entries.map Entry.responseId? =
    none :: b.node.body.responses.map fun r => some r.id
  answer_ids : b.answers.map Entry.id = List.range' first b.node.body.responses.length
  choices : b.node.body.responses ≠ [] → b.line.links = b.answers.map Entry.id
  targets : b.node.body.responses = [] → b.line.links = links f (index.outgoing b.node.id)
  answer_links : b.answers.map Entry.links =
    b.node.body.responses.map fun r => links f (index.outgoingAt b.node.id r.pin)

end Block

section Nodes

variable {sheets : List Sheet} {f : Flow} {index : Index}

theorem map_id_responses (f : Flow) (index : Index) (n : Node) (first : Nat)
    (rs : List Response) :
    (responses f index n first rs).value.map Entry.id = List.range' first rs.length := by
  induction rs generalizing first with
  | nil => rfl
  | cons r rs ih => exact congrArg (first :: ·) (ih (first + 1))

theorem nodeId_of_mem_responses (n : Node) (first : Nat) (rs : List Response) :
    ∀ e ∈ (responses f index n first rs).value, e.nodeId = n.id := by
  induction rs generalizing first with
  | nil => exact List.forall_mem_nil _
  | cons r rs ih => exact List.forall_mem_cons.mpr ⟨rfl, ih (first + 1)⟩

theorem map_responseId?_responses (n : Node) (first : Nat) (rs : List Response) :
    (responses f index n first rs).value.map Entry.responseId? = rs.map fun r => some r.id := by
  induction rs generalizing first with
  | nil => rfl
  | cons r rs ih => exact congrArg (some r.id :: ·) (ih (first + 1))

theorem map_links_responses (n : Node) (first : Nat) (rs : List Response) :
    (responses f index n first rs).value.map Entry.links =
      rs.map fun r => links f (index.outgoingAt n.id r.pin) := by
  induction rs generalizing first with
  | nil => rfl
  | cons r rs ih => exact congrArg (links f (index.outgoingAt n.id r.pin) :: ·) (ih (first + 1))

/-- Every node is written as a block. -/
theorem nodeEntries_eq (sheets : List Sheet) (f : Flow) (index : Index) (id first : Nat)
    (n : Node) :
    ∃ b : Block, b.node = n ∧ b.Written f index id first ∧
      (nodeEntries sheets f index id first n).value = b.entries := by
  rcases n with ⟨nodeId, type, data, position, body⟩
  cases body with
  | dialogue d =>
    refine ⟨⟨_, _, _⟩, rfl, ?_, rfl⟩
    have hids := map_id_responses f index ⟨nodeId, type, data, position, .dialogue d⟩ first
      d.responses
    refine ⟨rfl, List.forall_mem_cons.mpr ⟨rfl, nodeId_of_mem_responses _ first d.responses⟩,
      congrArg (none :: ·) (map_responseId?_responses _ first d.responses), hids,
      fun h => if_neg ?_, fun h => if_pos ?_, map_links_responses _ first d.responses⟩
    · intro he
      rw [List.isEmpty_iff.mp he] at hids
      have hnil : d.responses = [] := by simpa using (congrArg List.length hids).symm
      exact h hnil
    · rw [Body.responses] at h
      rw [h]
      rfl
  | entry | exit | branching | instruction | hub | jump | scene | subflow | unknown =>
    refine ⟨⟨_, _, []⟩, rfl, ?_, rfl⟩
    exact ⟨rfl, List.forall_mem_singleton.mpr rfl, rfl, rfl, fun h => absurd rfl h, fun _ => rfl,
      rfl⟩

/-- Blocks of the nodes from the one with number `id` on, whose responses are numbered from `first`
on. -/
inductive Blocks (f : Flow) (index : Index) : Nat → Nat → List Block → Prop where

  | nil {id first} : Blocks f index id first []

  | cons {id first b bs} : b.Written f index id first →
      Blocks f index (id + 1) (first + b.node.body.responses.length) bs →
      Blocks f index id first (b :: bs)

theorem entriesFrom_eq (sheets : List Sheet) (f : Flow) (index : Index) (id first : Nat)
    (ns : List Node) :
    ∃ bs, bs.map Block.node = ns ∧ Blocks f index id first bs ∧
      (entriesFrom sheets f index id first ns).value = bs.flatMap Block.entries := by
  induction ns generalizing id first with
  | nil => exact ⟨[], rfl, .nil, rfl⟩
  | cons n ns ih =>
    obtain ⟨b, rfl, hb, he⟩ := nodeEntries_eq sheets f index id first n
    obtain ⟨bs, rfl, hbs, hes⟩ := ih (id + 1) (first + responseCount b.node)
    refine ⟨b :: bs, rfl, .cons hb (responseCount_eq b.node ▸ hbs), ?_⟩
    rw [List.flatMap_cons, ← he, ← hes]
    rfl

end Nodes

namespace Blocks

variable {f : Flow} {index : Index} {id first : Nat} {bs : List Block} {b : Block}

theorem map_line (h : Blocks f index id first bs) :
    bs.map (fun b => (b.node, b.line.id)) = (bs.map Block.node).zipIdx id := by
  induction h with
  | nil => rfl
  | cons hb _ ih => rw [List.map_cons, List.map_cons, List.zipIdx_cons, ih, hb.line_id]

theorem map_answers (h : Blocks f index id first bs) :
    (bs.flatMap Block.answers).map Entry.id =
      List.range' first ((bs.map fun b => b.node.body.responses.length).sum) := by
  induction h with
  | nil => rfl
  | cons hb _ ih =>
    rw [List.flatMap_cons, List.map_append, hb.answer_ids, ih, List.map_cons, List.sum_cons,
      List.range'_append_1]

theorem written_of_mem (h : Blocks f index id first bs) (hb : b ∈ bs) :
    ∃ i k, first ≤ k ∧ b.Written f index i k := by
  induction h with
  | nil => simp at hb
  | @cons id first b' bs hw _ ih =>
    rcases List.mem_cons.mp hb with rfl | hb
    · exact ⟨id, first, Nat.le_refl first, hw⟩
    · obtain ⟨i, k, hk, hw⟩ := ih hb
      exact ⟨i, k, by omega, hw⟩

end Blocks

/-- The number of the entry of the node with an id. -/
def entryOf (bs : List Block) (id : String) : Option Nat :=
  (bs.find? (·.node.id = id)).map (·.line.id)

/-- The blocks of a conversation, in the order of the nodes, which have the first numbers. The
responses have the numbers after them. A line with responses links to these, and every link is the
number of an entry. With distinct ids, any other node follows the connections that leave it, in the
order of their pins, and a response those of its own pin; they link to the entries of those targets
that are there. -/
structure Conversation (f : Flow) (bs : List Block) : Prop where
  nodes : bs.map Block.node = f.nodes
  node_ids : ∀ b ∈ bs, ∀ e ∈ b.entries, e.nodeId = b.node.id
  response_ids : ∀ b ∈ bs, b.entries.map Entry.responseId? =
    none :: b.node.body.responses.map fun r => some r.id
  line_ids : bs.map (fun b => b.line.id) = List.range' 1 f.nodes.length
  answer_ids : (bs.flatMap Block.answers).map Entry.id =
    List.range' (f.nodes.length + 1) (f.nodes.map responseCount).sum
  consecutive : ∀ b ∈ bs, ∃ first, f.nodes.length < first ∧
    b.answers.map Entry.id = List.range' first b.node.body.responses.length
  closed : ∀ e ∈ bs.flatMap Block.entries, ∀ i ∈ e.links,
    ∃ other ∈ bs.flatMap Block.entries, other.id = i
  choices : ∀ b ∈ bs, b.node.body.responses ≠ [] → b.line.links = b.answers.map Entry.id
  targets : (f.nodes.map Node.id).Nodup → ∀ b ∈ bs, b.node.body.responses = [] →
    b.line.links = (f.leaving b.node.id).filterMap fun c => entryOf bs c.target
  answer_targets : (f.nodes.map Node.id).Nodup → ∀ b ∈ bs, b.answers.map Entry.links =
    b.node.body.responses.map fun r =>
      (f.leavingAt b.node.id r.pin).filterMap fun c => entryOf bs c.target

namespace Blocks

variable {f : Flow} {bs : List Block} {b : Block} {id : String} {i : Nat}

theorem map_line_id (h : Blocks f f.index 1 (f.nodes.length + 1) bs)
    (hn : bs.map Block.node = f.nodes) :
    bs.map (fun b => b.line.id) = List.range' 1 f.nodes.length := by
  rw [← List.zipIdx_map_snd, ← hn, ← h.map_line, List.map_map]
  rfl

/-- With distinct ids, an edge leads to the entry of its target. -/
theorem entryId?_eq (h : Blocks f f.index 1 (f.nodes.length + 1) bs)
    (hn : bs.map Block.node = f.nodes) (hd : (f.nodes.map Node.id).Nodup) (id : String) :
    entryId? f id = entryOf bs id := by
  have hlines := h.map_line
  rw [hn] at hlines
  rw [entryOf]
  cases hfind : bs.find? (·.node.id = id) with
  | none =>
    rw [Option.map_none, Option.eq_none_iff_forall_ne_some]
    intro i hi
    obtain ⟨n, hm, rfl⟩ := mem_zipIdx_of_entryId? hi
    obtain ⟨b, hb, he⟩ := List.mem_map.mp (hlines ▸ hm)
    have hne := List.find?_eq_none.mp hfind b hb
    simp [(Prod.mk.inj he).1] at hne
  | some b =>
    obtain rfl : b.node.id = id := by simpa using List.find?_some hfind
    apply entryId?_of_mem_zipIdx hd
    rw [← hlines]
    exact List.mem_map_of_mem (List.mem_of_find?_eq_some hfind)

/-- Connections link to the entries of their targets. -/
theorem links_ofConnection (h : Blocks f f.index 1 (f.nodes.length + 1) bs)
    (hn : bs.map Block.node = f.nodes) (hd : (f.nodes.map Node.id).Nodup) (cs : List Connection) :
    links f (cs.map Edge.ofConnection) = cs.filterMap fun c => entryOf bs c.target := by
  rw [links, List.filterMap_map]
  exact List.filterMap_congr fun c _ => h.entryId?_eq hn hd c.target

/-- The number of a node or a response is the number of an entry. -/
theorem exists_entry (h : Blocks f f.index 1 (f.nodes.length + 1) bs)
    (hn : bs.map Block.node = f.nodes) (hi : i ∈ List.range' 1 f.nodes.length) :
    ∃ e ∈ bs.flatMap Block.entries, e.id = i := by
  rw [← h.map_line_id hn] at hi
  obtain ⟨b, hb, rfl⟩ := List.mem_map.mp hi
  exact ⟨b.line, List.mem_flatMap.mpr ⟨b, hb, List.mem_cons_self⟩, rfl⟩

theorem closed (h : Blocks f f.index 1 (f.nodes.length + 1) bs) (hn : bs.map Block.node = f.nodes) :
    ∀ e ∈ bs.flatMap Block.entries, ∀ i ∈ e.links,
      ∃ other ∈ bs.flatMap Block.entries, other.id = i := by
  intro e he i hi
  obtain ⟨b, hb, he⟩ := List.mem_flatMap.mp he
  obtain ⟨_, first, -, hw⟩ := h.written_of_mem hb
  rcases List.mem_cons.mp he with rfl | he
  · by_cases hr : b.node.body.responses = []
    · rw [hw.targets hr] at hi
      exact h.exists_entry hn (mem_range_of_mem_links hi)
    · rw [hw.choices hr] at hi
      obtain ⟨answer, ha, rfl⟩ := List.mem_map.mp hi
      exact ⟨answer, List.mem_flatMap.mpr ⟨b, hb, List.mem_cons_of_mem _ ha⟩, rfl⟩
  · have hl := List.mem_map_of_mem (f := Entry.links) he
    rw [hw.answer_links] at hl
    obtain ⟨r, -, hl⟩ := List.mem_map.mp hl
    rw [← hl] at hi
    exact h.exists_entry hn (mem_range_of_mem_links hi)

theorem conversation (h : Blocks f f.index 1 (f.nodes.length + 1) bs)
    (hn : bs.map Block.node = f.nodes) : Conversation f bs where
  nodes := hn
  node_ids b hb := by
    obtain ⟨_, _, -, hw⟩ := h.written_of_mem hb
    exact hw.node_ids
  response_ids b hb := by
    obtain ⟨_, _, -, hw⟩ := h.written_of_mem hb
    exact hw.response_ids
  line_ids := h.map_line_id hn
  answer_ids := by
    rw [h.map_answers, ← hn, List.map_map]
    simp only [Function.comp_def, responseCount_eq]
  consecutive b hb := by
    obtain ⟨_, first, hfirst, hw⟩ := h.written_of_mem hb
    exact ⟨first, hfirst, hw.answer_ids⟩
  closed := h.closed hn
  choices b hb := by
    obtain ⟨_, _, -, hw⟩ := h.written_of_mem hb
    exact hw.choices
  targets hd b hb hr := by
    obtain ⟨_, _, -, hw⟩ := h.written_of_mem hb
    rw [hw.targets hr, f.outgoing_index, h.links_ofConnection hn hd]
  answer_targets hd b hb := by
    obtain ⟨_, _, -, hw⟩ := h.written_of_mem hb
    simp only [hw.answer_links, f.outgoingAt_index, h.links_ofConnection hn hd]

end Blocks

/-- The numbers of the entries are those from one to the number of nodes and responses, each
once. -/
theorem Conversation.ids_perm {f : Flow} {bs : List Block} (h : Conversation f bs) :
    ((bs.flatMap Block.entries).map Entry.id).Perm
      (List.range' 1 (f.nodes.length + (f.nodes.map responseCount).sum)) := by
  have hentries : (bs.flatMap Block.entries).Perm (bs.map Block.line ++ bs.flatMap Block.answers) :=
    (List.map_append_flatMap_perm bs Block.line Block.answers).symm
  refine (hentries.map Entry.id).trans (List.Perm.of_eq ?_)
  rw [List.map_append, List.map_map, h.answer_ids, Nat.add_comm f.nodes.length 1,
    ← List.range'_append_1, ← h.line_ids]
  rfl

section Export

variable {sheets : List Sheet}

/-- The conversation of a flow with a number, as it is written. -/
def conversationJson (id : Nat) (f : Flow) (entries : List Entry) : Json :=
  .obj [("id", .ofNat id), ("title", .str f.name), ("shortcut", .ofOption .str f.shortcut),
    ("entries", .arr (entries.map Entry.toJson))]

theorem conversations_value (sheets : List Sheet) (id : Nat) (fs : List Flow) :
    (conversations sheets id fs).value =
      (fs.zipIdx id).map fun (f, i) => conversationJson i f (entries sheets f).value := by
  induction fs generalizing id with
  | nil => rfl
  | cons f fs ih =>
    exact congrArg (conversationJson id f (entries sheets f).value :: ·) (ih (id + 1))

/-- The value of a field of an object. -/
def fieldOf (key : String) (j : Json) : Option Json :=
  j.fields?.bind (·.get? key)

/-- The conversations that a document lists. -/
def conversationsOf (document : Json) : Option (List Json) :=
  ((fieldOf "database" document).bind (fieldOf "conversations")).bind Json.items?

/-- An entry is written with its number and its links. -/
theorem Entry.fieldOf_toJson (e : Entry) : fieldOf "id" e.toJson = some (.ofNat e.id) ∧
    fieldOf "links_to" e.toJson = some (.arr (e.links.map .ofNat)) := by
  rcases e with ⟨id, nodeId, nodeType, isRoot, isGroup, links, body⟩
  cases body <;> exact ⟨rfl, rfl⟩

/-- Every flow is exported as a conversation whose entries have the numbers from one to the number
of its nodes and responses, each once, and are linked among each other. -/
theorem conversations_linked (o : Options) (p : Project) :
    (output o p).value = .text ((document o p).value.text o.prettyPrint) ∧
    conversationsOf (document o p).value = some ((p.flows.zipIdx 1).map fun (f, i) =>
      conversationJson i f (entries p.sheets f).value) ∧
    ∀ f ∈ p.flows, ∃ bs, (entries p.sheets f).value = bs.flatMap Block.entries ∧
      Conversation f bs ∧
      ((entries p.sheets f).value.map Entry.id).Perm
        (List.range' 1 (f.nodes.length + (f.nodes.map responseCount).sum)) ∧
      ∀ e ∈ (entries p.sheets f).value, fieldOf "id" e.toJson = some (.ofNat e.id) ∧
        fieldOf "links_to" e.toJson = some (.arr (e.links.map .ofNat)) := by
  refine ⟨rfl, congrArg some (conversations_value p.sheets 1 p.flows), ?_⟩
  intro f _
  obtain ⟨bs, hn, hbs, he⟩ := entriesFrom_eq p.sheets f f.index 1 (f.nodes.length + 1) f.nodes
  have hc := hbs.conversation hn
  refine ⟨bs, he, hc, ?_, fun e _ => e.fieldOf_toJson⟩
  rw [entries, he]
  exact hc.ids_perm

/-- A question with two answers. One leads to two nodes, and the first of these is a condition whose
pins are stored out of order. A last node leads to one that is not there. -/
def interview : Flow where
  id := "1"
  shortcut := some "interview"
  name := "Interview"
  description := none
  parentId := none
  isMain := true
  settings := []
  nodes := [.ofStored "start" "entry" [] none none,
    .ofStored "ask" "dialogue" [("text", .str "Ready?"),
      ("responses", .arr [.obj [("id", .str "yes")], .obj [("id", .str "no")]])] none none,
    .ofStored "check" "condition" [] none none,
    .ofStored "stay" "dialogue" [("text", .str "Stay.")] none none,
    .ofStored "end" "exit" [] none none]
  connections := [⟨none, "start", "output", "ask", none, none⟩,
    ⟨none, "ask", "response_no", "end", none, none⟩,
    ⟨none, "check", "true", "stay", none, none⟩,
    ⟨none, "ask", "response_yes", "check", none, none⟩,
    ⟨none, "check", "false", "end", none, none⟩,
    ⟨none, "ask", "response_yes", "end", none, none⟩,
    ⟨none, "stay", "output", "gone", none, none⟩]

def interviewProject : Project :=
  ⟨⟨"1", "Interview", none, none, []⟩, [], [interview], [], [], .empty, []⟩

def interviewOptions : Options :=
  ⟨.unity, "1.0", true, true, true, true, true, none, .all, .all, .all, .all, true, true,
    "2024-01-01T00:00:00Z"⟩

theorem interview_linked : interview ∈ interviewProject.flows ∧
    (interview.nodes.map Node.id).Nodup ∧
    (entries [] interview).value.map (fun e => (e.id, e.links)) =
      [(1, [2]), (2, [6, 7]), (6, [3, 5]), (7, [5]), (3, [5, 4]), (4, []), (5, [])] ∧
    ((entries [] interview).value.map Entry.id).Perm [1, 2, 3, 4, 5, 6, 7] := by
  have hm : interview ∈ interviewProject.flows := List.mem_singleton_self interview
  obtain ⟨bs, -, -, hperm, -⟩ :=
    (conversations_linked interviewOptions interviewProject).2.2 interview hm
  refine ⟨hm, by decide, ?_, hperm⟩
  simp only [entries, Flow.index, Index.ofGraph, Text.sortByUnits_eq_insertionSort]
  decide +kernel

end Export

end StoryFlow.Unity
