import StoryFlow.Godot
import StoryFlow.Proofs.Graph.Index
import StoryFlow.Proofs.Json.Order

/-! # Links of a Godot document

A written node names the targets of its edges, and its responses name those of their own pins. So a
flow of the document links to its own nodes alone exactly when every connection that it shows leads
to one of them.
-/

namespace StoryFlow

namespace Json

/-- The list in a field of an object. -/
def itemsAt (key : String) (j : Json) : List Json :=
  ((j.fields?.bind (·.get? key)).bind items?).getD []

/-- The object in a field of an object. -/
def fieldsAt (key : String) (j : Json) : Fields :=
  ((j.fields?.bind (·.get? key)).bind fields?).getD []

def str? : Json → Option String
  | str s => some s
  | _ => none

/-- The texts in the list in a field of an object. -/
def textsAt (key : String) (j : Json) : List String :=
  (j.itemsAt key).filterMap str?

@[simp] theorem filterMap_str? (ss : List String) : (ss.map str).filterMap str? = ss := by
  rw [List.filterMap_map]
  exact List.filterMap_some

end Json

namespace Godot

/-- The ids that a node of a document and its responses lead to. -/
def nextIds (node : Json) : List String :=
  node.textsAt "next" ++ (node.itemsAt "responses").flatMap (Json.textsAt "next")

/-- The nodes of a flow of a document. -/
def nodesOf (flow : Json) : Fields :=
  flow.fieldsAt "nodes"

/-- All links of a flow lead to its nodes. -/
def Closed (flow : Json) : Prop :=
  ∀ n ∈ nodesOf flow, ∀ id ∈ nextIds n.2, id ∈ (nodesOf flow).keys

instance (flow : Json) : Decidable (Closed flow) :=
  inferInstanceAs (Decidable (∀ _ ∈ _, ∀ _ ∈ _, _))

section Nodes

variable {sheets : List Sheet} {index : Index} {n : Node} {id : String}

/-- A response as it is written for the node with an id. -/
def responseJson (index : Index) (id : String) (r : Response) : Json :=
  .obj [("id", .str r.id), ("text", .str (Markup.strip r.text)),
    ("next", .arr ((targets (index.outgoingAt id r.pin)).map .str)),
    ("condition", (condition r.condition).value)]

theorem responses_value (index : Index) (id : String) (rs : List Response) :
    (responses index id rs).value = rs.map (responseJson index id) := by
  induction rs with
  | nil => rfl
  | cons r rs ih => exact congrArg (responseJson index id r :: ·) ih

theorem entries_value (sheets : List Sheet) (index : Index) (ns : List Node) :
    (entries sheets index ns).value = ns.map fun n => (n.id, (entry sheets index n).value) := by
  induction ns with
  | nil => rfl
  | cons n ns ih => exact congrArg ((n.id, (entry sheets index n).value) :: ·) ih

theorem textsAt_next (e : Entry) : e.toJson.textsAt "next" = e.next :=
  Json.filterMap_str? e.next

theorem textsAt_responseJson (r : Response) :
    (responseJson index id r).textsAt "next" = targets (index.outgoingAt id r.pin) :=
  Json.filterMap_str? _

/-- A node with responses leaves the edges at their pins to them. -/
theorem nextIds_entry (sheets : List Sheet) (index : Index) (n : Node) :
    nextIds (entry sheets index n).value.toJson =
      targets (if n.body.responses = [] then index.outgoing n.id
        else (index.outgoing n.id).filter (!isResponsePin ·)) ++
      n.body.responses.flatMap fun r => targets (index.outgoingAt n.id r.pin) := by
  rcases n with ⟨id, type, data, position, body⟩
  rw [nextIds, textsAt_next]
  cases body with
  | dialogue d =>
    let n : Node := ⟨id, type, data, position, .dialogue d⟩
    have hitems : (entry sheets index n).value.toJson.itemsAt "responses" =
        (responses index id d.responses).value := rfl
    have hnext : (entry sheets index n).value.next =
        targets (if (responses index id d.responses).value.isEmpty then index.outgoing id
          else (index.outgoing id).filter (!isResponsePin ·)) := rfl
    rw [hitems, hnext, responses_value, List.flatMap_map]
    refine congrArg₂ (· ++ ·) (congrArg targets (if_congr ?_ rfl rfl)) ?_
    · rw [List.isEmpty_iff, List.map_eq_nil_iff]
      rfl
    · exact List.flatMap_congr fun r _ => textsAt_responseJson r
  | branching b | instruction assignments | hub h | jump j | entry | exit id | scene s | subflow s
  | unknown =>
    exact congrArg (· ++ []) (congrArg targets (if_pos rfl).symm)

theorem isResponsePin_iff {e : Edge} :
    isResponsePin e ↔ "response_".toList <+: e.pin.toList :=
  List.isPrefixOf_iff_prefix

/-- Is an edge at the pin a link of the written node or of one of its responses? -/
def Shown (n : Node) (pin : String) : Prop :=
  n.body.responses = [] ∨ ¬ "response_".toList <+: pin.toList ∨
    ∃ r ∈ n.body.responses, r.pin = pin

theorem mem_targets {edges : List Edge} : id ∈ targets edges ↔ ∃ e ∈ edges, e.target = id :=
  List.mem_map

theorem mem_nextIds_entry :
    id ∈ nextIds (entry sheets index n).value.toJson ↔
      ∃ e ∈ index.outgoing n.id, Shown n e.pin ∧ e.target = id := by
  rw [nextIds_entry, List.mem_append, List.mem_flatMap, mem_targets]
  simp only [mem_targets, Index.mem_outgoingAt]
  by_cases hr : n.body.responses = []
  · simp [hr, Shown]
  · rw [if_neg hr]
    constructor
    · rintro (⟨e, he, rfl⟩ | ⟨r, hmem, e, ⟨he, hpin⟩, rfl⟩)
      · rw [List.mem_filter] at he
        exact ⟨e, he.1, .inr (.inl fun hpin => by simp [isResponsePin_iff.mpr hpin] at he), rfl⟩
      · exact ⟨e, he, .inr (.inr ⟨r, hmem, hpin.symm⟩), rfl⟩
    · rintro ⟨e, he, hnone | hpin | ⟨r, hmem, hpin⟩, rfl⟩
      · exact absurd hnone hr
      · rw [← isResponsePin_iff] at hpin
        exact .inl ⟨e, List.mem_filter.mpr ⟨he, by simpa using hpin⟩, rfl⟩
      · exact .inr ⟨r, hmem, e, ⟨he, hpin.symm⟩, rfl⟩

end Nodes

section Flows

variable {f : Flow}

/-- The connections that the written nodes of a flow show. -/
def Shows (f : Flow) (c : Connection) : Prop :=
  ∃ n ∈ f.nodes, n.id = c.source ∧ Shown n c.sourcePin

theorem nodesOf_flow (sheets : List Sheet) (f : Flow) :
    nodesOf (flow sheets f).value =
      Fields.table (f.nodes.map fun n => (n.id, (entry sheets f.index n).value.toJson)) := by
  have hvalue : nodesOf (flow sheets f).value = Fields.table
      ((entries sheets f.index f.nodes).value.map fun e => (e.1, e.2.toJson)) := rfl
  rw [hvalue, entries_value, List.map_map]
  rfl

/-- Nodes with distinct ids are all written, each under its id. -/
theorem nodesOf_flow_perm (sheets : List Sheet) (hd : (f.nodes.map Node.id).Nodup)
    (hlost : ∀ n ∈ f.nodes, n.id ≠ Fields.lostKey) :
    (nodesOf (flow sheets f).value).Perm
      (f.nodes.map fun n => (n.id, (entry sheets f.index n).value.toJson)) := by
  rw [nodesOf_flow]
  apply Fields.table_perm
  · rwa [List.map_map]
  · exact List.forall_mem_map.mpr hlost

theorem closed_flow_iff (sheets : List Sheet) (hd : (f.nodes.map Node.id).Nodup)
    (hlost : ∀ n ∈ f.nodes, n.id ≠ Fields.lostKey) :
    Closed (flow sheets f).value ↔
      ∀ c ∈ f.connections, Shows f c → c.target ∈ f.nodes.map Node.id := by
  have hperm := nodesOf_flow_perm sheets hd hlost
  have hkeys : ∀ id, id ∈ (nodesOf (flow sheets f).value).keys ↔ id ∈ f.nodes.map Node.id := by
    intro id
    rw [Fields.keys, (hperm.map Prod.fst).mem_iff, List.map_map]
    rfl
  constructor
  · rintro hclosed c hc ⟨n, hn, hsource, hshown⟩
    rw [← hkeys]
    apply hclosed _ (hperm.mem_iff.mpr (List.mem_map_of_mem hn))
    rw [mem_nextIds_entry]
    exact ⟨.ofConnection c, Index.mem_outgoing_ofGraph.mpr ⟨c, hc, hsource.symm, rfl⟩, hshown, rfl⟩
  · intro hconnections node hnode id hid
    obtain ⟨n, hn, rfl⟩ := List.mem_map.mp (hperm.mem_iff.mp hnode)
    obtain ⟨e, he, hshown, rfl⟩ := mem_nextIds_entry.mp hid
    obtain ⟨c, hc, hsource, rfl⟩ := Index.mem_outgoing_ofGraph.mp he
    rw [hkeys]
    exact hconnections c hc ⟨n, hn, hsource.symm, hshown⟩

theorem flows_value (sheets : List Sheet) (keys : UniqueKeys) (fs : List Flow) :
    (flows sheets keys fs).value =
      fs.map fun f => ((keys.get? f.id).getD f.id, (flow sheets f).value) := by
  induction fs with
  | nil => rfl
  | cons f fs ih => exact congrArg (((keys.get? f.id).getD f.id, (flow sheets f).value) :: ·) ih

/-- The key of a flow in the table of flows. -/
def flowKey (p : Project) (f : Flow) : String :=
  ((UniqueKeys.ofList p.flows Flow.id Flow.handle).get? f.id).getD f.id

/-- The flows of a document. -/
def flowsOf (document : Json) : Fields :=
  document.fieldsAt "flows"

theorem flowsOf_document (o : Options) (p : Project) :
    flowsOf (document o p).value =
      Fields.table (p.flows.map fun f => (flowKey p f, (flow p.sheets f).value)) :=
  congrArg Fields.table (flows_value p.sheets _ p.flows)

end Flows

end Godot

end StoryFlow
