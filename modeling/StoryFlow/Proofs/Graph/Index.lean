import StoryFlow.Graph.Linearize
import StoryFlow.Proofs.Assoc
import StoryFlow.Proofs.Text.Units

/-! # Looking up in the index of a graph

A node is found under its own id, the hubs are nodes that can be found, and the edges of a node
are the connections that leave it, sorted by their pins.
-/

namespace StoryFlow

theorem Node.hub?_eq_some_iff {n : Node} {h : Hub} : n.hub? = some h ↔ n.body = .hub h := by
  unfold Node.hub?
  split <;> simp_all

namespace Index

/-- The parts of an index agree on ids and hubs. -/
structure Coherent (index : Index) : Prop where
  node_id : ∀ {id n}, index.node? id = some n → n.id = id
  hub_of_node : ∀ {id n h}, index.node? id = some n → n.body = .hub h → index.hub? id = some h
  node_of_hub : ∀ {id h}, index.hub? id = some h → ∃ n, index.node? id = some n
  hubs_nodup : (index.hubs.map Prod.fst).Nodup

/-- The ids of the nodes that are written out with a body of their own. -/
def bodies (index : Index) : List String :=
  (index.nodes.filter (·.2.hasBody)).map Prod.fst

theorem bodies_length_le (index : Index) : index.bodies.length ≤ index.nodes.length := by
  rw [bodies, List.length_map]
  exact List.length_filter_le _ _

section OfGraph

variable {nodes : List Node} {connections : List Connection} {id : String} {n : Node}

theorem node?_ofGraph : (ofGraph nodes connections).node? id =
    (nodes.reverse.map fun n => (n.id, n)).lookup id := by
  rw [node?, ofGraph, Assoc.lookup_ofPairs, List.map_reverse]

theorem hub?_ofGraph : (ofGraph nodes connections).hub? id =
    (nodes.reverse.filterMap fun n => n.hub?.map (n.id, ·)).lookup id := by
  rw [hub?, ofGraph, Assoc.lookup_ofPairs, List.filterMap_reverse]

theorem mem_of_node?_ofGraph (h : (ofGraph nodes connections).node? id = some n) :
    n ∈ nodes ∧ n.id = id := by
  rw [node?_ofGraph] at h
  obtain ⟨m, hm, he⟩ := List.mem_map.mp (Assoc.mem_of_lookup h)
  simp only [Prod.mk.injEq] at he
  obtain ⟨rfl, rfl⟩ := he
  exact ⟨List.mem_reverse.mp hm, rfl⟩

theorem node?_ofGraph_isSome (h : n ∈ nodes) :
    ∃ m, (ofGraph nodes connections).node? n.id = some m := by
  rw [node?_ofGraph, ← Option.isSome_iff_exists, Assoc.lookup_isSome_iff]
  simp only [List.map_map, List.mem_map, List.mem_reverse]
  exact ⟨n, h, rfl⟩

theorem node?_ofGraph_of_mem (hd : (nodes.map Node.id).Nodup) (h : n ∈ nodes) :
    (ofGraph nodes connections).node? n.id = some n := by
  rw [node?_ofGraph]
  refine Assoc.lookup_of_mem ?_ (List.mem_map.mpr ⟨n, List.mem_reverse.mpr h, rfl⟩)
  rw [List.map_map, List.map_reverse, List.nodup_reverse]
  exact hd

theorem lookup_hub_of_lookup {ns : List Node} {h : Hub}
    (hn : (ns.map fun n => (n.id, n)).lookup id = some n) (hb : n.hub? = some h) :
    (ns.filterMap fun n => n.hub?.map (n.id, ·)).lookup id = some h := by
  induction ns with
  | nil => simp at hn
  | cons m ns ih =>
    rw [List.map_cons, Assoc.lookup_cons_ite] at hn
    rw [List.filterMap_cons]
    split at hn
    · rename_i he
      obtain rfl : m = n := Option.some.inj hn
      simp [hb, he, Assoc.lookup_cons_ite]
    · rename_i he
      cases hm : m.hub? with
      | none => simpa [hm] using ih hn
      | some g => simpa [hm, Assoc.lookup_cons_ite, if_neg he] using ih hn

theorem ofGraph_coherent (nodes : List Node) (connections : List Connection) :
    (ofGraph nodes connections).Coherent where
  node_id h := (mem_of_node?_ofGraph h).2
  hub_of_node hn hb := by
    rw [node?_ofGraph] at hn
    rw [hub?_ofGraph]
    exact lookup_hub_of_lookup hn (Node.hub?_eq_some_iff.mpr hb)
  node_of_hub h := by
    rw [hub?_ofGraph] at h
    obtain ⟨m, hm, he⟩ := List.mem_filterMap.mp (Assoc.mem_of_lookup h)
    obtain ⟨g, _, he⟩ := Option.map_eq_some_iff.mp he
    obtain ⟨rfl, rfl⟩ := Prod.mk.inj he
    exact node?_ofGraph_isSome (List.mem_reverse.mp hm)
  hubs_nodup := Assoc.nodup_keys_ofPairs _

/-- The edges of a node are the connections that leave it, in the order of their pins. -/
theorem outgoing_ofGraph : (ofGraph nodes connections).outgoing id =
    (Text.sortByUnits Connection.sourcePin (connections.filter (·.source = id))).map
      Edge.ofConnection := by
  have hpin : Connection.sourcePin = Edge.pin ∘ Edge.ofConnection := rfl
  have hg := Assoc.lookup_group Connection.source connections id
  rw [hpin, Text.map_sortByUnits, outgoing, ofGraph]
  generalize Assoc.group Connection.source connections = groups at hg
  induction groups with
  | nil =>
    rw [← hg]
    simp [Text.sortByUnits]
  | cons g groups ih =>
    rw [Assoc.lookup_cons_ite] at hg
    rw [List.map_cons, Assoc.lookup_cons_ite]
    split at hg
    · rename_i he
      simp only [Option.getD_some] at hg
      simp [he, hg]
    · rename_i he
      rw [if_neg he]
      exact ih hg

theorem mem_outgoing_ofGraph {e : Edge} :
    e ∈ (ofGraph nodes connections).outgoing id ↔
      ∃ c ∈ connections, c.source = id ∧ Edge.ofConnection c = e := by
  rw [outgoing_ofGraph, List.mem_map]
  simp [(Text.sortByUnits_perm _ _).mem_iff, and_assoc]

end OfGraph

variable {index : Index}

theorem mem_outgoingAt {id pin : String} {e : Edge} :
    e ∈ index.outgoingAt id pin ↔ e ∈ index.outgoing id ∧ e.pin = pin := by
  simp [outgoingAt]

theorem mem_hubLabels {id : String} {h : Hub} (hh : index.hub? id = some h) :
    h.labelAt id ∈ index.hubLabels :=
  List.mem_map.mpr ⟨(id, h), Assoc.mem_of_lookup hh, rfl⟩

theorem mem_bodies {n : Node} (hn : index.node? n.id = some n) (hb : n.hasBody) :
    n.id ∈ index.bodies :=
  List.mem_map.mpr ⟨(n.id, n), List.mem_filter.mpr ⟨Assoc.mem_of_lookup hn, hb⟩, rfl⟩

theorem Coherent.hub_of_resolveHub (hc : index.Coherent) {ref id : String} {h : Hub}
    (hr : index.resolveHub ref = some (id, h)) : index.hub? id = some h := by
  unfold resolveHub at hr
  split at hr
  · rename_i g hg
    obtain ⟨rfl, rfl⟩ := Prod.mk.inj (Option.some.inj hr)
    exact hg
  · exact Assoc.lookup_of_mem hc.hubs_nodup (List.mem_of_find?_eq_some hr)

theorem Coherent.hub_of_jumpHub (hc : index.Coherent) {source id : String} {j : Jump} {h : Hub}
    (hj : Linearize.jumpHub index source j = some (id, h)) : index.hub? id = some h := by
  rw [Linearize.jumpHub, Option.orElse_eq_orElse, Option.orElse_eq_or,
    Option.or_eq_some_iff] at hj
  rcases hj with hr | ⟨_, hr⟩
  · obtain ⟨ref, _, hr⟩ := Option.bind_eq_some_iff.mp hr
    exact hc.hub_of_resolveHub hr
  · obtain ⟨e, _, he⟩ := List.exists_of_findSome?_eq_some hr
    obtain ⟨g, hg, he⟩ := Option.map_eq_some_iff.mp he
    obtain ⟨rfl, rfl⟩ := Prod.mk.inj he
    exact hg

end Index

namespace Flow

variable (f : Flow) (id pin : String)

theorem index_coherent : f.index.Coherent :=
  Index.ofGraph_coherent f.nodes f.connections

/-- The connections that leave a node, sorted by their pins. -/
def leaving : List Connection :=
  Text.sortByUnits Connection.sourcePin (f.connections.filter (·.source = id))

/-- The connections that leave a node from one pin, in their own order. -/
def leavingAt : List Connection :=
  f.connections.filter fun c => c.source = id ∧ c.sourcePin = pin

theorem outgoing_index : f.index.outgoing id = (f.leaving id).map Edge.ofConnection :=
  Index.outgoing_ofGraph

theorem filter_leaving : (f.leaving id).filter (·.sourcePin = pin) = f.leavingAt id pin := by
  rw [leaving, Text.filter_sortByUnits, List.filter_filter, leavingAt]
  congr 1
  funext c
  rw [Bool.decide_and, Bool.and_comm]

theorem outgoingAt_index :
    f.index.outgoingAt id pin = (f.leavingAt id pin).map Edge.ofConnection := by
  rw [Index.outgoingAt, outgoing_index, List.filter_map, ← filter_leaving]
  rfl

end Flow

end StoryFlow
