import Mathlib.Data.List.Nodup
import StoryFlow.Proofs.FreshName
import StoryFlow.Proofs.Graph.Plan

/-! # Runs of the traversal

A run says what the traversal writes for a task and what progress it leaves, without a bound on
its depth. The nodes on a path differ, so the depth that the traversal is given always suffices
and it computes a run.
-/

namespace StoryFlow.Linearize

/-- What the traversal has before it: to arrive at a node, to follow edges, to write the arms of a
plan, or to write out a node. -/
inductive Task where
  | visit (id : String)
  | follow (edges : List Edge)
  | arms (as : List Arm)
  | expand (node : Node)

/-- Marks a node with a body as written. -/
def enter (node : Node) (p : Progress) : Progress :=
  if node.hasBody then { p with expanded := node.id :: p.expanded } else p

/-- What an arrival at a node of the path leaves: a divert to a hub, and else nothing. -/
def closing (node : Node) : List Step :=
  node.hub?.toList.map fun h => .divert (h.labelAt node.id)

/-- From the progress `p`, a task on a path writes steps and leaves the progress `q`. -/
inductive Run (index : Index) :
    List String → Task → Progress → List Step → Progress → Prop where

  | missing {path id p} : index.node? id = none →
      Run index path (.visit id) p [] p

  | onPath {path id node p} : index.node? id = some node → id ∈ path →
      Run index path (.visit id) p (closing node) p

  | shared {path id node p} : index.node? id = some node → id ∉ path →
      node.hasBody → id ∈ p.expanded →
      Run index path (.visit id) p [.divert (p.addJoin node).1] (p.addJoin node).2

  | entered {path id node p ss q} : index.node? id = some node → id ∉ path →
      (node.hasBody → id ∉ p.expanded) →
      Run index (id :: path) (.expand node) (enter node p) ss q →
      Run index path (.visit id) p ss q

  | noEdge {path p} : Run index path (.follow []) p [] p

  | edge {path e es p ss q ts r} : Run index path (.visit e.target) p ss q →
      Run index path (.follow es) q ts r →
      Run index path (.follow (e :: es)) p (ss ++ ts) r

  | noArm {path p} : Run index path (.arms []) p [] p

  | arm {path a as p ss q ts r} : Run index path (.follow a.edges) p ss q →
      Run index path (.arms as) q ts r →
      Run index path (.arms (a :: as)) p (a.heads ++ (ss ++ ts)) r

  | expand {path node p ss q} :
      Run index path (.arms (plan index node).arms) (ask (plan index node).hub p) ss q →
      Run index path (.expand node) p
        ((plan index node).opening ++ (ss ++ (plan index node).closing)) q

variable {index : Index} {path : List String} {visits : String → Emit}

section Adequacy

theorem run_follow (h : ∀ id p, Run index path (.visit id) p (visits id p).1 (visits id p).2)
    (es : List Edge) (p : Progress) :
    Run index path (.follow es) p (follow visits es p).1 (follow visits es p).2 := by
  induction es generalizing p with
  | nil => exact .noEdge
  | cons e es ih => exact .edge (h e.target p) (ih _)

theorem run_arms (h : ∀ id p, Run index path (.visit id) p (visits id p).1 (visits id p).2)
    (as : List Arm) (p : Progress) :
    Run index path (.arms as) p (arms visits as p).1 (arms visits as p).2 := by
  induction as generalizing p with
  | nil => exact .noArm
  | cons a as ih => exact .arm (run_follow h a.edges p) (ih _)

theorem run_expand (h : ∀ id p, Run index path (.visit id) p (visits id p).1 (visits id p).2)
    (node : Node) (p : Progress) :
    Run index path (.expand node) p (expand index visits node p).1
      (expand index visits node p).2 := by
  rw [expand_eq]
  exact .expand (run_arms h _ _)

structure IsPath (index : Index) (path : List String) : Prop where
  nodup : path.Nodup
  known : ∀ id ∈ path, ∃ node, index.node? id = some node

theorem IsPath.nil : IsPath index [] :=
  ⟨List.nodup_nil, by simp⟩

theorem IsPath.cons {id : String} {node : Node} (hp : IsPath index path)
    (hn : index.node? id = some node) (hi : id ∉ path) : IsPath index (id :: path) :=
  ⟨List.nodup_cons.mpr ⟨hi, hp.nodup⟩, List.forall_mem_cons.mpr ⟨⟨node, hn⟩, hp.known⟩⟩

theorem IsPath.singleton {id : String} {node : Node} (hn : index.node? id = some node) :
    IsPath index [id] :=
  IsPath.nil.cons hn (by simp)

theorem IsPath.length_le (hp : IsPath index path) : path.length ≤ index.nodes.length := by
  have hs : path ⊆ index.nodes.map Prod.fst := by
    intro id hid
    obtain ⟨node, hn⟩ := hp.known id hid
    exact Assoc.lookup_isSome_iff.mp (Option.isSome_of_eq_some hn)
  simpa using hp.nodup.length_le_of_subset hs

/-- The traversal computes a run when its depth covers the nodes off the path. -/
theorem run_visit (hc : index.Coherent) {depth : Nat} (hp : IsPath index path)
    (hd : index.nodes.length < depth + path.length) (id : String) (p : Progress) :
    Run index path (.visit id) p (visit index depth path id p).1
      (visit index depth path id p).2 := by
  induction depth generalizing path id p with
  | zero =>
    have := hp.length_le
    omega
  | succ depth ih =>
    rw [visit]
    split
    · rename_i hn
      exact .missing hn
    · rename_i node hn
      obtain rfl : node.id = id := hc.node_id hn
      split
      · rename_i hm
        exact .onPath hn hm
      · rename_i hm
        have hd' : index.nodes.length < depth + (node.id :: path).length := by
          rw [List.length_cons]
          omega
        have hv := run_expand (ih (hp.cons hn hm) hd') node
        split
        · rename_i hb
          split
          · rename_i he
            exact .shared hn hm hb he
          · rename_i he
            refine .entered hn hm (fun _ => he) ?_
            rw [enter, if_pos hb]
            exact hv _
        · rename_i hb
          refine .entered hn hm (fun h => absurd h hb) ?_
          rw [enter, if_neg hb]
          exact hv p

end Adequacy

/-- A task that writes out a node is about a node of the index. -/
def Task.Known (index : Index) : Task → Prop
  | .expand node => index.node? node.id = some node
  | _ => True

theorem hub_of_plan (hc : index.Coherent) {node : Node} {id : String} {h : Hub}
    (hn : index.node? node.id = some node) (hp : (plan index node).hub = some (id, h)) :
    index.hub? id = some h := by
  rcases plan_hub_eq_some hp with ⟨g, hb, he⟩ | ⟨j, _, _, hj⟩
  · obtain ⟨rfl, rfl⟩ := Prod.mk.inj he
    exact hc.hub_of_node hn hb
  · exact hc.hub_of_jumpHub hj

/-- A relation that holds across every change that the traversal makes holds across its runs. -/
theorem Run.preserves (hc : index.Coherent) {R : Progress → Progress → Prop}
    (refl : ∀ p, R p p) (trans : ∀ {p q r}, R p q → R q r → R p r)
    (addHub : ∀ {id h} (p : Progress), index.hub? id = some h → R p (p.addHub id h))
    (addJoin : ∀ {node} (p : Progress), index.node? node.id = some node → node.hasBody →
      node.id ∈ p.expanded → R p (p.addJoin node).2)
    (enters : ∀ {node} (p : Progress), index.node? node.id = some node →
      (node.hasBody → node.id ∉ p.expanded) → R p (enter node p))
    {task : Task} {p q : Progress} {ss : List Step}
    (h : Run index path task p ss q) (hk : task.Known index) : R p q := by
  induction h with
  | missing | onPath | noEdge | noArm => exact refl _
  | shared hn _ hb he =>
    obtain rfl := hc.node_id hn
    exact addJoin _ hn hb he
  | entered hn _ hb _ ih =>
    obtain rfl := hc.node_id hn
    exact trans (enters _ hn hb) (ih hn)
  | edge _ _ ih ih' => exact trans (ih trivial) (ih' trivial)
  | arm _ _ ih ih' => exact trans (ih trivial) (ih' trivial)
  | @expand path node p ss q hr ih =>
    refine trans ?_ (ih trivial)
    cases hh : (plan index node).hub with
    | none => exact refl p
    | some a => exact addHub p (hub_of_plan hc hk hh)

end StoryFlow.Linearize
