import Mathlib.Data.List.Find
import StoryFlow.Proofs.Graph.Alike
import StoryFlow.Proofs.Graph.Reach
import StoryFlow.Proofs.Text.Units

/-! # The order of storage

Nodes and connections can be stored in any order, as long as the connections of one pin keep
theirs: with distinct ids, one entry node and distinct hub keys, the script of a flow stays the
same.
-/

namespace StoryFlow

/-- The keys by which jumps find the hubs of a flow. -/
def Flow.hubKeys (f : Flow) : List String :=
  f.nodes.filterMap fun n => n.hub?.bind Hub.key

/-- The flow `g` stores the nodes and connections of `f` in another order, in which connections of
one source and one pin follow each other as in `f`. -/
structure Flow.Reordered (f g : Flow) : Prop where
  nodes : f.nodes.Perm g.nodes
  connections : f.connections.Perm g.connections
  pins : ∀ source pin, f.connections.filter (fun c => c.source = source ∧ c.sourcePin = pin) =
    g.connections.filter (fun c => c.source = source ∧ c.sourcePin = pin)

namespace Index

variable {nodes nodes' : List Node} {connections connections' : List Connection}

/-- The nodes with the body of a hub, by their ids. -/
def hubPairs (nodes : List Node) : List (String × Hub) :=
  nodes.filterMap fun n => n.hub?.map (n.id, ·)

theorem nodes_ofGraph (hd : (nodes.map Node.id).Nodup) :
    (ofGraph nodes connections).nodes = nodes.map fun n => (n.id, n) := by
  apply Assoc.ofPairs_eq_self
  rwa [List.map_map]

theorem nodup_hubPairs (hd : (nodes.map Node.id).Nodup) :
    ((hubPairs nodes).map Prod.fst).Nodup := by
  have hsub : ((hubPairs nodes).map Prod.fst).Sublist (nodes.map Node.id) := by
    clear hd
    induction nodes with
    | nil => exact List.Sublist.slnil
    | cons n nodes ih =>
      rw [hubPairs, List.filterMap_cons]
      cases n.hub? with
      | none => exact ih.cons n.id
      | some h => exact ih.cons_cons n.id
  exact hd.sublist hsub

theorem hubs_ofGraph (hd : (nodes.map Node.id).Nodup) :
    (ofGraph nodes connections).hubs = hubPairs nodes :=
  Assoc.ofPairs_eq_self (nodup_hubPairs hd)

/-- With distinct keys, no two hubs have the key that a reference names. -/
theorem subsingleton_hubPairs {nodes : List Node}
    (hk : (nodes.filterMap fun n => n.hub?.bind Hub.key).Nodup) (ref : String) :
    {p ∈ hubPairs nodes | p.2.key == some ref}.Subsingleton := by
  have hkeys : (hubPairs nodes).filterMap (·.2.key) =
      nodes.filterMap fun n => n.hub?.bind Hub.key := by
    rw [hubPairs, List.filterMap_filterMap]
    congr 1
    funext n
    cases n.hub? <;> rfl
  rw [← hkeys, List.Nodup, List.pairwise_filterMap] at hk
  let Same (p q : String × Hub) : Prop := p.2.key = some ref → q.2.key = some ref → p = q
  have hsame : (hubPairs nodes).Pairwise Same := hk.imp fun h hp hq => absurd rfl (h ref hp ref hq)
  have hall := hsame.forall_of_forall_of_flip (fun p _ _ _ => rfl)
    (hsame.imp fun h hq hp => (h hp hq).symm)
  rintro p ⟨hp, hpr⟩ q ⟨hq, hqr⟩
  exact hall hp hq (beq_iff_eq.mp hpr) (beq_iff_eq.mp hqr)

/-- The edges of a node depend on the order of the connections of each pin only. -/
theorem outgoing_ofGraph_eq (h : ∀ source pin,
      connections.filter (fun c => c.source = source ∧ c.sourcePin = pin) =
        connections'.filter (fun c => c.source = source ∧ c.sourcePin = pin)) (id : String) :
    (ofGraph nodes connections).outgoing id = (ofGraph nodes' connections').outgoing id := by
  rw [outgoing_ofGraph, outgoing_ofGraph]
  refine congrArg (List.map Edge.ofConnection) (Text.sortByUnits_eq fun pin => ?_)
  rw [List.filter_filter, List.filter_filter]
  simpa only [Bool.decide_and, Bool.and_comm] using h id pin

end Index

namespace Flow

open Index

variable {f g : Flow}

theorem Reordered.alike (hr : f.Reordered g) (hd : (f.nodes.map Node.id).Nodup)
    (he : ∃! n, n ∈ f.nodes ∧ n.isEntry) (hk : f.hubKeys.Nodup) : f.index.Alike g.index := by
  have hd' : (g.nodes.map Node.id).Nodup := (hr.nodes.map Node.id).nodup_iff.mp hd
  have hnodes : f.index.nodes.Perm g.index.nodes := by
    rw [index, index, nodes_ofGraph hd, nodes_ofGraph hd']
    exact hr.nodes.map _
  have hhubs : f.index.hubs.Perm g.index.hubs := by
    rw [index, index, hubs_ofGraph hd, hubs_ofGraph hd']
    exact hr.nodes.filterMap _
  have hhub : ∀ id, f.index.hub? id = g.index.hub? id := fun id =>
    Assoc.lookup_perm hhubs (hubs_ofGraph hd ▸ nodup_hubPairs hd) id
  refine ⟨fun id => ?_, hhub, fun ref => ?_, outgoing_ofGraph_eq hr.pins, ?_, hhubs.map _,
    hnodes.length_eq, hhubs.length_eq⟩
  · apply Assoc.lookup_perm hnodes
    rw [index, nodes_ofGraph hd, List.map_map]
    exact hd
  · have hfind := List.find?_eq_find?_of_perm hhubs (p := fun p => p.2.key == some ref)
      (hubs_ofGraph hd ▸ subsingleton_hubPairs hk ref)
    rw [resolveHub, resolveHub, hhub, hfind]
  · obtain ⟨entry, -, hunique⟩ := he
    apply List.find?_eq_find?_of_perm hr.nodes
    rintro m ⟨hm, hme⟩ n ⟨hn, hne⟩
    exact (hunique m ⟨hm, hme⟩).trans (hunique n ⟨hn, hne⟩).symm

/-- Where no two connections share a source and a pin, every order will do. -/
theorem Reordered.of_nodup (hn : f.nodes.Perm g.nodes) (hc : f.connections.Perm g.connections)
    (hp : (f.connections.map fun c => (c.source, c.sourcePin)).Nodup) : f.Reordered g := by
  refine ⟨hn, hc, fun source pin => ?_⟩
  have htrue : ∀ cs : List Connection, cs.Pairwise fun _ _ => True :=
    fun cs => List.pairwise_of_forall_mem_list fun _ _ _ _ => trivial
  refine List.Perm.eq_of_pairwise ?_ (htrue _) (htrue _) (hc.filter _)
  intro c d hcm hdm _ _
  obtain ⟨hcf, hcp⟩ := List.mem_filter.mp hcm
  obtain ⟨hdg, hdp⟩ := List.mem_filter.mp hdm
  obtain ⟨rfl, rfl⟩ := of_decide_eq_true hcp
  obtain ⟨hsource, hpin⟩ := of_decide_eq_true hdp
  exact List.inj_on_of_nodup_map hp hcf (hc.mem_iff.mpr hdg) (by rw [hsource, hpin])

/-- With distinct ids, one entry node and distinct hub keys, the script of a flow does not depend on
the order in which its nodes and connections are stored. -/
theorem linearize_reordered (hr : f.Reordered g) (hd : (f.nodes.map Node.id).Nodup)
    (he : ∃! n, n ∈ f.nodes ∧ n.isEntry) (hk : f.hubKeys.Nodup) : f.linearize = g.linearize :=
  (hr.alike hd he hk).linearize

/-- The round trip, stored from its end. -/
def roundTripBackwards : Flow :=
  { roundTrip with
    nodes := roundTrip.nodes.reverse
    connections := roundTrip.connections.reverse }

theorem roundTrip_reordered : roundTrip.Reordered roundTripBackwards ∧
    (∃! n, n ∈ roundTrip.nodes ∧ n.isEntry) ∧ roundTrip.hubKeys.Nodup ∧
    roundTrip.linearize = roundTripBackwards.linearize := by
  have hr : roundTrip.Reordered roundTripBackwards :=
    .of_nodup (List.reverse_perm _).symm (List.reverse_perm _).symm (by decide)
  have he : ∃! n, n ∈ roundTrip.nodes ∧ n.isEntry := by
    refine ⟨⟨"start", "entry", [], none, .entry⟩, ⟨List.mem_cons_self, rfl⟩, ?_⟩
    simp [roundTrip, line, Node.isEntry]
  have hk : roundTrip.hubKeys.Nodup := by decide
  exact ⟨hr, he, hk, linearize_reordered hr roundTrip_nodup he hk⟩

end Flow

end StoryFlow
