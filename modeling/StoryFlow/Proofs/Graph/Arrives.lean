import StoryFlow.Proofs.Graph.Plan

/-! # Reachability in a flow

A node is reachable when the entry node leads to it by edges that are followed and by jumps. The
edges that a plan follows are exactly the connections whose pin the node follows.
-/

namespace StoryFlow

open Linearize

/-- The pins whose edges a node follows when it is written out. A hub follows its edges in a
section of its own. -/
def Node.Follows (n : Node) (pin : String) : Prop :=
  match n.body with
  | .entry | .instruction _ | .scene _ | .subflow _ => True
  | .dialogue d => d.responses = [] ∨ ∃ r ∈ d.responses, pin = r.pin
  | .branching b => ∃ (i : Nat) (c : Case), b.cases[i]? = some c ∧ pin = c.pin i
  | .exit _ | .hub _ | .jump _ | .unknown => False

namespace Flow

/-- A connection leads from one id to another and is followed. -/
inductive Leads (f : Flow) : String → String → Prop where

  | node {n c} : c ∈ f.connections → f.index.node? c.source = some n → n.Follows c.sourcePin →
      Leads f c.source c.target

  | hub {h c} : c ∈ f.connections → f.index.hub? c.source = some h →
      Leads f c.source c.target

theorem Leads.connection {f : Flow} {a b : String} (h : f.Leads a b) :
    ∃ c ∈ f.connections, c.source = a ∧ c.target = b := by
  cases h with
  | node hc => exact ⟨_, hc, rfl, rfl⟩
  | hub hc => exact ⟨_, hc, rfl, rfl⟩

/-- An id can be reached from the first entry node. -/
inductive Arrives (f : Flow) : String → Prop where

  | entry {n} : f.nodes.find? Node.isEntry = some n → Arrives f n.id

  | edge {a b} : Arrives f a → f.Leads a b → Arrives f b

  | jump {a n j b h} : Arrives f a → f.index.node? a = some n → n.body = .jump j →
      j.flowShortcut = none → jumpHub f.index a j = some (b, h) → Arrives f b

section RoundTrip

def line (id : String) (responses : List Response) : Node :=
  ⟨id, "dialogue", [], none, .dialogue ⟨"", none, none, none, none, none, responses⟩⟩

/-- A line whose two responses lead to another line, which leads to a hub and from there back. -/
def roundTrip : Flow where
  id := "1"
  shortcut := none
  name := "Round trip"
  description := none
  parentId := none
  isMain := true
  settings := []
  nodes := [⟨"start", "entry", [], none, .entry⟩,
    line "ask" [⟨"yes", "", none, none, [], []⟩, ⟨"no", "", none, none, [], []⟩],
    line "reply" [], ⟨"again", "hub", [], none, .hub ⟨none, none, none⟩⟩]
  connections := [⟨none, "start", "", "ask", none, none⟩,
    ⟨none, "ask", "response_yes", "reply", none, none⟩,
    ⟨none, "ask", "response_no", "reply", none, none⟩,
    ⟨none, "reply", "", "again", none, none⟩, ⟨none, "again", "", "ask", none, none⟩]

theorem roundTrip_nodup : (roundTrip.nodes.map Node.id).Nodup := by
  decide

end RoundTrip

variable {f : Flow} {n : Node} {id : String}

theorem node?_eq_some_iff (hd : (f.nodes.map Node.id).Nodup) :
    f.index.node? id = some n ↔ n ∈ f.nodes ∧ n.id = id := by
  constructor
  · exact Index.mem_of_node?_ofGraph
  · rintro ⟨hn, rfl⟩
    exact Index.node?_ofGraph_of_mem hd hn

/-- With distinct ids, the hubs are the nodes with the body of a hub. -/
theorem body_of_hub? (hd : (f.nodes.map Node.id).Nodup) {h : Hub}
    (hn : f.index.node? id = some n) (hh : f.index.hub? id = some h) : n.body = .hub h := by
  obtain ⟨hm, rfl⟩ := (node?_eq_some_iff hd).mp hn
  rw [index, Index.hub?_ofGraph] at hh
  obtain ⟨m, hm', he⟩ := List.mem_filterMap.mp (Assoc.mem_of_lookup hh)
  obtain ⟨g, hg, he⟩ := Option.map_eq_some_iff.mp he
  obtain ⟨hid, rfl⟩ := Prod.mk.inj he
  obtain rfl : m = n :=
    List.inj_on_of_nodup_map hd (List.mem_reverse.mp hm') hm hid
  exact Node.hub?_eq_some_iff.mp hg

theorem mem_outgoing {e : Edge} :
    e ∈ f.index.outgoing id ↔ ∃ c ∈ f.connections, c.source = id ∧ Edge.ofConnection c = e :=
  Index.mem_outgoing_ofGraph

end Flow

namespace Linearize

variable {index : Index} {n : Node} {e : Edge}

theorem mem_choiceArms {id : String} {i : Nat} {rs : List Response} {a : Arm} :
    a ∈ choiceArms index id i rs ↔
      ∃ k r, rs[k]? = some r ∧ a = ⟨[.choice id r (i + k)], index.outgoingAt id r.pin⟩ := by
  simp only [choiceArms, List.mem_map, Prod.exists]
  constructor
  · rintro ⟨r, k, hk, rfl⟩
    obtain ⟨hle, hk⟩ := List.mem_zipIdx_iff_le_and_getElem?_sub.mp hk
    exact ⟨k - i, r, hk, by rw [Nat.add_sub_cancel' hle]⟩
  · rintro ⟨k, r, hk, rfl⟩
    exact ⟨r, i + k, List.mem_zipIdx_iff_le_and_getElem?_sub.mpr ⟨by omega, by simpa using hk⟩, rfl⟩

theorem mem_branchArms {id : String} {b : Branching} {i : Nat} {cs : List Case} {a : Arm} :
    a ∈ branchArms index id b i cs ↔
      ∃ k c, cs[k]? = some c ∧
        a = ⟨[.conditionBranch id b c (i + k)], index.outgoingAt id (c.pin (i + k))⟩ := by
  simp only [branchArms, List.mem_map, Prod.exists]
  constructor
  · rintro ⟨c, k, hk, rfl⟩
    obtain ⟨hle, hk⟩ := List.mem_zipIdx_iff_le_and_getElem?_sub.mp hk
    exact ⟨k - i, c, hk, by rw [Nat.add_sub_cancel' hle]⟩
  · rintro ⟨k, c, hk, rfl⟩
    exact ⟨c, i + k, List.mem_zipIdx_iff_le_and_getElem?_sub.mpr ⟨by omega, by simpa using hk⟩, rfl⟩

/-- A plan follows the edges with the pins of its node. -/
theorem mem_plan_edges :
    (∃ a ∈ (plan index n).arms, e ∈ a.edges) ↔ e ∈ index.outgoing n.id ∧ n.Follows e.pin := by
  unfold plan Node.Follows
  cases n.body with
  | entry | instruction | scene | subflow => simp
  | exit | hub | jump | unknown => simp
  | dialogue d =>
    by_cases hd : d.responses = []
    · simp [hd]
    · simp only [List.isEmpty_iff, hd, if_false, false_or]
      constructor
      · rintro ⟨a, ha, he⟩
        obtain ⟨k, r, hk, rfl⟩ := mem_choiceArms.mp ha
        obtain ⟨he, hp⟩ := Index.mem_outgoingAt.mp he
        exact ⟨he, r, List.mem_of_getElem? hk, hp⟩
      · rintro ⟨he, r, hr, hp⟩
        obtain ⟨k, hk⟩ := List.mem_iff_getElem?.mp hr
        exact ⟨_, mem_choiceArms.mpr ⟨k, r, hk, rfl⟩, Index.mem_outgoingAt.mpr ⟨he, hp⟩⟩
  | branching b =>
    constructor
    · rintro ⟨a, ha, he⟩
      obtain ⟨k, c, hk, rfl⟩ := mem_branchArms.mp ha
      obtain ⟨he, hp⟩ := Index.mem_outgoingAt.mp he
      exact ⟨he, k, c, hk, by simpa using hp⟩
    · rintro ⟨he, k, c, hk, hp⟩
      exact ⟨_, mem_branchArms.mpr ⟨k, c, hk, rfl⟩,
        Index.mem_outgoingAt.mpr ⟨he, by simpa using hp⟩⟩

end Linearize

end StoryFlow
