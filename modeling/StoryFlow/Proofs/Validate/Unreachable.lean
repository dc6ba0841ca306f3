import StoryFlow.Proofs.Validate.Checks
import StoryFlow.Proofs.Validate.Search

/-! # The report of unreachable nodes

In a flow with entries, a node is reported if it is no entry and connections lead to it from none of
the entries. A connection may name nodes that the flow does not have: the search then follows the
ids, and reports nodes only.
-/

namespace StoryFlow

open Validate

/-- In a flow with an entry, no path of connections leads to the node from an entry, and it is none
itself. -/
structure Flow.Stranded (f : Flow) (n : Node) : Prop where
  hasEntry : ∃ e ∈ f.nodes, e.isEntry
  notEntry : n.isEntry = false
  noPath : ∀ e ∈ f.nodes, e.isEntry → ¬ Relation.ReflTransGen (Joins f.connections) e.id n.id

namespace Validate

variable {f : Flow} {n : Node} {id : String}

theorem mem_entryIds (hn : n ∈ f.nodes) (he : n.isEntry) : n.id ∈ entryIds f :=
  List.mem_map_of_mem (List.mem_filter.mpr ⟨hn, he⟩)

theorem entryIds_ne_nil_iff : entryIds f ≠ [] ↔ ∃ e ∈ f.nodes, e.isEntry := by
  simp [entryIds, List.filter_eq_nil_iff]

theorem reaches_entryIds_iff : Reaches f.connections (entryIds f) id ↔
    ∃ e ∈ f.nodes, e.isEntry ∧ Relation.ReflTransGen (Joins f.connections) e.id id := by
  simp only [Reaches, entryIds, List.mem_map, List.mem_filter]
  constructor
  · rintro ⟨-, ⟨e, ⟨he, hentry⟩, rfl⟩, hp⟩
    exact ⟨e, he, hentry, hp⟩
  · rintro ⟨e, he, hentry, hp⟩
    exact ⟨e.id, ⟨e, ⟨he, hentry⟩, rfl⟩, hp⟩

theorem stranded_iff : f.Stranded n ↔
    entryIds f ≠ [] ∧ n.isEntry = false ∧ ¬ Reaches f.connections (entryIds f) n.id := by
  rw [entryIds_ne_nil_iff, reaches_entryIds_iff]
  constructor
  · intro h
    exact ⟨h.hasEntry, h.notEntry, fun ⟨e, he, hentry, hp⟩ => h.noPath e he hentry hp⟩
  · rintro ⟨hsome, hn, hp⟩
    exact ⟨hsome, hn, fun e he hentry h => hp ⟨e, he, hentry, h⟩⟩

/-- The search decides whether a node is stranded. -/
instance (f : Flow) (n : Node) : Decidable (f.Stranded n) :=
  decidable_of_iff (entryIds f ≠ [] ∧ n.isEntry = false ∧
    n.id ∉ reachable f.connections (entryIds f)) (by rw [stranded_iff, mem_reachable_iff])

theorem unreachableIn_eq (f : Flow) : unreachableIn f =
    (f.nodes.filter fun n => f.Stranded n).map fun n => .unreachableNode (n.ref f) := by
  simp only [unreachableIn, List.isEmpty_iff]
  split
  · rename_i hnone
    -- without an entry no node is stranded
    have hs : f.nodes.filter (fun n => f.Stranded n) = [] :=
      List.filter_eq_nil_iff.mpr fun n _ => by simp [stranded_iff, hnone]
    rw [hs, List.map_nil]
  · rename_i hsome
    have hs : f.nodes.filter (fun n => !n.isEntry && !decide (n.id ∈ reachable f.connections
        (entryIds f))) = f.nodes.filter fun n => f.Stranded n :=
      List.filter_congr fun n _ => by
        rw [Bool.eq_iff_iff]
        simp [stranded_iff, hsome, mem_reachable_iff]
    rw [hs]

end Validate

/-- Exactly the stranded nodes are reported, once each, flow by flow in their order. Whatever the
connections and the first ids are, no search goes on forever, and it ends with the ids that it has
met. -/
theorem Project.unreachable_nodes_reported (p : Project) :
    p.validate.findings.filter (·.check = "unreachable_nodes") =
        p.flows.flatMap (fun f =>
          (f.nodes.filter fun n => f.Stranded n).map fun n => .unreachableNode (n.ref f)) ∧
      ∀ connections starts, (WellFounded fun s t => Round connections t s) ∧
        Relation.ReflTransGen (Round connections) (starts, starts)
          ([], reachable connections starts) := by
  have hc : ("unreachable_nodes", unreachableNodes p.flows) ∈ p.checks := by simp [checks]
  refine ⟨?_, fun connections starts =>
    ⟨wellFounded_round connections, rounds_reachable connections starts⟩⟩
  rw [filter_check hc, unreachableNodes, funext unreachableIn_eq]

/-- Two entries, a loop behind the second one, a cycle apart from both that leads to the loop, and
connections that name nodes that are not there. -/
def Flow.islands : Flow where
  id := "1"
  shortcut := none
  name := "Islands"
  description := none
  parentId := none
  isMain := true
  settings := []
  nodes := [.ofStored "north" "entry" [] none none, .ofStored "south" "entry" [] none none,
    .ofStored "loop" "hub" [] none none, .ofStored "reef" "hub" [] none none,
    .ofStored "sandbar" "hub" [] none none]
  connections := [("south", "loop"), ("loop", "loop"), ("reef", "sandbar"), ("sandbar", "reef"),
    ("sandbar", "loop"), ("north", "lost"), ("gone", "reef")].map fun (a, b) =>
      ⟨none, a, "output", b, none, none⟩

example : (Flow.islands.nodes.filter fun n => Flow.islands.Stranded n).map Node.id =
    ["reef", "sandbar"] := by decide +kernel

end StoryFlow
