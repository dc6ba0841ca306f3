import StoryFlow.Proofs.FreshName
import StoryFlow.Proofs.Graph.Plan

/-! # Alike indexes

The traversal asks an index for nodes, hubs and edges, and it asks which labels hubs have, but it
never looks at the order in which the index keeps them. Two indexes that give the same answers are
therefore written out alike.
-/

namespace StoryFlow

/-- Two indexes that give the same answers. -/
structure Index.Alike (a b : Index) : Prop where
  node? : ∀ id, a.node? id = b.node? id
  hub? : ∀ id, a.hub? id = b.hub? id
  resolveHub : ∀ ref, a.resolveHub ref = b.resolveHub ref
  outgoing : ∀ id, a.outgoing id = b.outgoing id
  entry : a.entry = b.entry
  hubLabels : a.hubLabels.Perm b.hubLabels
  nodes_length : a.nodes.length = b.nodes.length
  hubs_length : a.hubs.length = b.hubs.length

/-- Two progresses that differ in the order of the used labels only. -/
structure Progress.Alike (p q : Progress) : Prop where
  queue : p.queue = q.queue
  hubsSeen : p.hubsSeen = q.hubsSeen
  expanded : p.expanded = q.expanded
  joinLabels : p.joinLabels = q.joinLabels
  usedLabels : p.usedLabels.Perm q.usedLabels

namespace Progress.Alike

variable {p q : Progress}

theorem addHub (h : p.Alike q) (id : String) (hub : Hub) :
    (p.addHub id hub).Alike (q.addHub id hub) := by
  unfold Progress.addHub
  rw [h.hubsSeen]
  split
  · exact h
  · exact { h with
      hubsSeen := rfl
      queue := congrArg (· ++ [.hub id hub]) h.queue }

theorem newLabel (h : p.Alike q) (id : String) : p.newLabel id = q.newLabel id :=
  freshName_perm h.usedLabels _

theorem addJoin (h : p.Alike q) (node : Node) :
    (p.addJoin node).1 = (q.addJoin node).1 ∧ (p.addJoin node).2.Alike (q.addJoin node).2 := by
  unfold Progress.addJoin
  rw [h.joinLabels, h.newLabel]
  split
  · exact ⟨rfl, h⟩
  · refine ⟨rfl, { h with queue := ?_, joinLabels := rfl, usedLabels := ?_ }⟩
    · exact congrArg (· ++ [_]) h.queue
    · exact h.usedLabels.cons _

end Progress.Alike

namespace Linearize

/-- From alike progresses, two emits write the same steps and leave alike progresses. -/
def Agree (e e' : Emit) : Prop :=
  ∀ p q, p.Alike q → (e p).1 = (e' q).1 ∧ (e p).2.Alike (e' q).2

variable {a b : Index} {visits visits' : String → Emit}

theorem agree_follow (hv : ∀ id, Agree (visits id) (visits' id)) (es : List Edge) :
    Agree (follow visits es) (follow visits' es) := by
  induction es with
  | nil => exact fun p q h => ⟨rfl, h⟩
  | cons e es ih =>
    intro p q h
    obtain ⟨hfirst, hp⟩ := hv e.target p q h
    obtain ⟨hrest, hq⟩ := ih _ _ hp
    exact ⟨by simp only [follow, hfirst, hrest], hq⟩

theorem agree_arms (hv : ∀ id, Agree (visits id) (visits' id)) (as : List Arm) :
    Agree (arms visits as) (arms visits' as) := by
  induction as with
  | nil => exact fun p q h => ⟨rfl, h⟩
  | cons arm as ih =>
    intro p q h
    obtain ⟨hbody, hp⟩ := agree_follow hv arm.edges p q h
    obtain ⟨hrest, hq⟩ := ih _ _ hp
    exact ⟨by simp only [arms, hbody, hrest], hq⟩

theorem alike_ask {p q : Progress} (h : p.Alike q) (hub : Option (String × Hub)) :
    (ask hub p).Alike (ask hub q) := by
  cases hub with
  | none => exact h
  | some hub => exact h.addHub hub.1 hub.2

theorem plan_eq (h : a.Alike b) (node : Node) : plan a node = plan b node := by
  have hat : ∀ id pin, a.outgoingAt id pin = b.outgoingAt id pin := by
    intro id pin
    rw [Index.outgoingAt, Index.outgoingAt, h.outgoing]
  have hjump : ∀ id j, jumpHub a id j = jumpHub b id j := by
    intro id j
    simp only [jumpHub, h.outgoing, h.hub?, funext h.resolveHub]
  simp only [plan, h.outgoing, choiceArms, branchArms, hat, jumpAsks, jumpTarget, hjump]

theorem agree_expand (h : a.Alike b) (hv : ∀ id, Agree (visits id) (visits' id)) (node : Node) :
    Agree (expand a visits node) (expand b visits' node) := by
  intro p q hpq
  obtain ⟨hsteps, hleft⟩ := agree_arms hv (plan b node).arms _ _ (alike_ask hpq (plan b node).hub)
  rw [expand_eq, expand_eq, plan_eq h]
  exact ⟨by rw [hsteps], hleft⟩

theorem agree_visit (h : a.Alike b) (depth : Nat) (path : List String) (id : String) :
    Agree (visit a depth path id) (visit b depth path id) := by
  induction depth generalizing path id with
  | zero => exact fun p q hpq => ⟨rfl, hpq⟩
  | succ depth ih =>
    intro p q hpq
    rw [visit, visit, h.node?]
    cases b.node? id with
    | none => exact ⟨rfl, hpq⟩
    | some node =>
      have hexpand := agree_expand h (ih (id :: path)) node
      simp only
      split
      · exact ⟨rfl, hpq⟩
      · split
        · rw [hpq.expanded]
          split
          · obtain ⟨hlabel, hjoin⟩ := hpq.addJoin node
            exact ⟨by rw [hlabel], hjoin⟩
          · exact hexpand _ _ { hpq with expanded := rfl }
        · exact hexpand p q hpq

theorem agree_writeSection (h : a.Alike b) (depth : Nat) (pending : Pending) {p q : Progress}
    (hpq : p.Alike q) :
    (writeSection a depth pending p).1 = (writeSection b depth pending q).1 ∧
      (writeSection a depth pending p).2.Alike (writeSection b depth pending q).2 := by
  cases pending with
  | hub id hub =>
    obtain ⟨hsteps, hleft⟩ :=
      agree_follow (agree_visit h depth [id]) (a.outgoing id) p q hpq
    rw [writeSection, writeSection, ← h.outgoing]
    exact ⟨by rw [hsteps], hleft⟩
  | join node label =>
    obtain ⟨hsteps, hleft⟩ := agree_expand h (agree_visit h depth [node.id]) node p q hpq
    exact ⟨by rw [writeSection, writeSection, hsteps], hleft⟩

theorem drain_eq (h : a.Alike b) (depth rounds : Nat) {p q : Progress} (hpq : p.Alike q) :
    drain a depth rounds p = drain b depth rounds q := by
  induction rounds generalizing p q with
  | zero => rfl
  | succ rounds ih =>
    rw [drain, drain, hpq.queue]
    cases q.queue with
    | nil => rfl
    | cons pending queue =>
      obtain ⟨hsection, hleft⟩ :=
        agree_writeSection h depth pending (p := { p with queue }) (q := { q with queue })
          { hpq with queue := rfl }
      exact congrArg₂ List.cons hsection (ih hleft)

theorem start_alike (h : a.Alike b) : (start a).Alike (start b) :=
  ⟨rfl, rfl, rfl, rfl, h.hubLabels⟩

end Linearize

open Linearize in
/-- Alike indexes have the same script. -/
theorem Index.Alike.linearize {a b : Index} (h : a.Alike b) : a.linearize = b.linearize := by
  rw [Index.linearize, Index.linearize, h.nodes_length, h.hubs_length, bounded, bounded, h.entry]
  cases b.entry with
  | none => rfl
  | some entry =>
    obtain ⟨hmain, hleft⟩ :=
      agree_visit h (b.nodes.length + 1) [] entry.id _ _ (start_alike h)
    simp only [hmain, drain_eq h _ _ hleft]

end StoryFlow
