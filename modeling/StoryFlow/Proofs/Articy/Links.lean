import StoryFlow.Proofs.Articy.Ids

/-! # Links of an articy document

The connections of a flow are written with the ids of their nodes, whether these are written or
not. So the links of a flow stay inside it when all its connections join nodes of known kinds, and,
where digests tell keys apart, only then.
-/

namespace StoryFlow

namespace Articy

open Xml

/-- The fragments of the flows of a document. -/
def fragments (document : Xml) : List Xml :=
  ((document.named "Project").flatMap (named "Hierarchy")).flatMap (named "FlowFragment")

/-- The ids of the elements among the nodes of a fragment. -/
def nodeIds (fragment : Xml) : List String :=
  (fragment.named "Nodes").flatMap ids

/-- The two ids that a connection joins. -/
def ends (connection : Xml) : List String :=
  (connection.attribute? "Source").toList ++ (connection.attribute? "Target").toList

/-- The ids that the connections of a fragment join. -/
def linkIds (fragment : Xml) : List String :=
  ((fragment.named "Connections").flatMap (named "Connection")).flatMap ends

/-- All links of a fragment join its nodes. -/
def Closed (fragment : Xml) : Prop :=
  ∀ id ∈ linkIds fragment, id ∈ nodeIds fragment

instance (fragment : Xml) : Decidable (Closed fragment) :=
  inferInstanceAs (Decidable (∀ _ ∈ _, _))

section Indentation

variable {x : Xml} {depth : Nat}

theorem nodeIds_indent : nodeIds (indent depth x) = nodeIds x := by
  rw [nodeIds, named_indent, List.flatMap_map]
  exact List.flatMap_congr fun y _ => ids_indent _ y

theorem linkIds_indent : linkIds (indent depth x) = linkIds x := by
  rw [linkIds, named_indent, flatMap_named_indent, List.flatMap_map]
  exact List.flatMap_congr fun y _ => by simp [ends]

theorem closed_indent : Closed (indent depth x) ↔ Closed x := by
  rw [Closed, Closed, linkIds_indent, nodeIds_indent]

theorem fragments_indent : fragments (indent 0 x) = (fragments x).map (indent 3) := by
  rw [fragments, named_indent, flatMap_named_indent, flatMap_named_indent]
  rfl

end Indentation

section Flows

variable {f : Flow} {id : String}

/-- Does a flow have a node of a known kind with an id? -/
def Known (f : Flow) (id : String) : Prop :=
  ∃ n ∈ f.nodes, n.id = id ∧ n.body ≠ .unknown

theorem responseKey_ne_nodeKey (r : Response) : responseKey r ≠ nodeKey id := by
  intro h
  have hhead := congrArg (·.toList.head?) h
  simp [responseKey, nodeKey] at hhead

theorem mem_flatMap_nodeKeys : nodeKey id ∈ f.nodes.flatMap nodeKeys ↔ Known f id := by
  have hkey : ∀ n : Node, nodeKey id = nodeKey n.id ↔ n.id = id := fun n =>
    (String.append_right_inj _).trans eq_comm
  have hmem : ∀ n, nodeKey id ∈ nodeKeys n ↔ n.id = id ∧ n.body ≠ .unknown := by
    intro n
    by_cases hn : n.body = .unknown <;> simp [nodeKeys, hn, hkey, responseKey_ne_nodeKey]
  rw [List.mem_flatMap]
  simp only [hmem, Known]

theorem nodeIds_flow (sheets : List Sheet) (f : Flow) :
    nodeIds (flow sheets f).value = (f.nodes.flatMap nodeKeys).map Guid.ofKey := by
  rw [← ids_nodes sheets]
  simp [nodeIds, flow, bind, pure, ownIds]

/-- The keys that the connections of a flow join. -/
def linkKeys (f : Flow) : List String :=
  f.connections.flatMap fun c => [nodeKey c.source, nodeKey c.target]

theorem linkIds_flow (sheets : List Sheet) (f : Flow) :
    linkIds (flow sheets f).value = (linkKeys f).map Guid.ofKey := by
  have hconnections : (f.connections.map connection).filter (·.tag? = some "Connection") =
      f.connections.map connection :=
    List.filter_eq_self.mpr (List.forall_mem_map.mpr fun _ _ => rfl)
  have hends : ∀ c, ends (connection c) = [nodeKey c.source, nodeKey c.target].map Guid.ofKey :=
    fun _ => rfl
  simp [linkIds, flow, bind, pure, hconnections, linkKeys, List.flatMap_map, List.map_flatMap, hends]

/-- The keys of the nodes of a flow and of the ends of its connections. -/
def graphKeys (f : Flow) : List String :=
  f.nodes.flatMap nodeKeys ++ linkKeys f

/-- Both ends of every connection are nodes of known kinds. -/
def JoinsKnown (f : Flow) : Prop :=
  ∀ c ∈ f.connections, Known f c.source ∧ Known f c.target

theorem joinsKnown_iff : JoinsKnown f ↔ ∀ key ∈ linkKeys f, key ∈ f.nodes.flatMap nodeKeys := by
  simp only [JoinsKnown, linkKeys, ← mem_flatMap_nodeKeys, List.forall_mem_flatMap,
    List.forall_mem_cons, List.not_mem_nil, false_implies, implies_true, and_true]

theorem closed_flow_of_joinsKnown (sheets : List Sheet) (h : JoinsKnown f) :
    Closed (flow sheets f).value := by
  rw [joinsKnown_iff] at h
  rw [Closed, linkIds_flow, nodeIds_flow, List.forall_mem_map]
  exact fun key hkey => List.mem_map_of_mem (h key hkey)

/-- Where digests tell the keys of a flow apart, links lead to what they are meant for. -/
theorem joinsKnown_of_closed_flow {sheets : List Sheet}
    (hdigest : Set.InjOn Guid.ofKey {key | key ∈ graphKeys f})
    (h : Closed (flow sheets f).value) : JoinsKnown f := by
  rw [Closed, linkIds_flow, nodeIds_flow, List.forall_mem_map] at h
  rw [joinsKnown_iff]
  intro key hkey
  obtain ⟨other, hother, he⟩ := List.mem_map.mp (h key hkey)
  have hsame := hdigest (List.mem_append_left _ hother) (List.mem_append_right _ hkey) he
  exact hsame ▸ hother

end Flows

section Documents

variable (o : Options) (p : Project)

/-- The fragment of a flow in the document of a project. -/
def fragmentOf (f : Flow) : Xml :=
  if o.prettyPrint then indent 3 (flow p.sheets f).value else (flow p.sheets f).value

theorem fragments_written : fragments (written o p) = p.flows.map (fragmentOf o p) := by
  have htree : fragments (tree o p).value = p.flows.map fun f => (flow p.sheets f).value := by
    have hentities : (p.sheets.map entity).filter (·.tag? = some "FlowFragment") = [] :=
      List.filter_eq_nil_iff.mpr (List.forall_mem_map.mpr fun s _ => by simp [entity])
    have hflows : (flows p.sheets p.flows).value.filter (·.tag? = some "FlowFragment") =
        p.flows.map fun f => (flow p.sheets f).value := by
      rw [flows_value]
      exact List.filter_eq_self.mpr (List.forall_mem_map.mpr fun _ _ => rfl)
    simp [fragments, tree, bind, pure, globalVariables, hentities, hflows]
  unfold written fragmentOf
  split
  · rw [fragments_indent, htree, List.map_map]
    rfl
  · exact htree

theorem closed_fragmentOf (f : Flow) :
    Closed (fragmentOf o p f) ↔ Closed (flow p.sheets f).value := by
  unfold fragmentOf
  split
  · exact closed_indent
  · rfl

end Documents

end Articy

end StoryFlow
