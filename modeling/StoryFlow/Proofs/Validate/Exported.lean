import StoryFlow.Proofs.Graph.Reach
import StoryFlow.Proofs.Validate.Unreachable

/-! # Reports of unreachable nodes

A script follows connections and jumps, the search of the validation connections only. So the
nodes that a script mentions are reported as unreachable only because of a jump whose hub no
connections lead to.
-/

namespace StoryFlow

open Validate

/-- The script of a flow has a step of the node, or a section of the hub. -/
def Flow.Exports (f : Flow) (n : Node) : Prop :=
  (∃ s ∈ f.linearize.steps, s.node? = some n.id) ∨
    ∃ s ∈ f.linearize.sections, s.kind = .hub ∧ s.node = n.id

/-- Connections lead from the entries to the hubs that the jumps of the script name. -/
def Flow.HubsConnected (f : Flow) : Prop :=
  ∀ n ∈ f.nodes, f.Exports n → ∀ j, n.body = .jump j → j.flowShortcut = none →
    ∀ b h, j.hub.bind f.index.resolveHub = some (b, h) → Reaches f.connections (entryIds f) b

section Findings

variable {p : Project} {f : Flow} {n : Node} {r : NodeRef}

/-- Only the search of a flow reports nodes as unreachable. -/
theorem unreachableNode_mem_validate : .unreachableNode r ∈ p.validate.findings ↔
    ∃ f ∈ p.flows, .unreachableNode r ∈ unreachableIn f := by
  have hc : ("unreachable_nodes", unreachableNodes p.flows) ∈ p.checks := by
    simp [Project.checks]
  rw [Project.mem_findings_iff hc rfl, unreachableNodes, List.mem_flatMap]

/-- With distinct ids, the node that is reported is told by its reference. -/
theorem unreachableNode_mem_unreachableIn (hd : (f.nodes.map Node.id).Nodup) (hn : n ∈ f.nodes) :
    .unreachableNode (n.ref f) ∈ unreachableIn f ↔
      entryIds f ≠ [] ∧ n.isEntry = false ∧ ¬ Reaches f.connections (entryIds f) n.id := by
  rw [unreachableIn_eq, List.mem_map, ← stranded_iff]
  constructor
  · rintro ⟨m, hm, href⟩
    obtain ⟨hm, hs⟩ := List.mem_filter.mp hm
    have hid : m.id = n.id := congrArg NodeRef.id (Finding.unreachableNode.inj href)
    obtain rfl := List.inj_on_of_nodup_map hd hm hn hid
    exact of_decide_eq_true hs
  · exact fun hs => ⟨n, List.mem_filter.mpr ⟨hn, decide_eq_true hs⟩, rfl⟩

end Findings

namespace Flow

open Linearize

variable {f : Flow} {n : Node} {id : String}

theorem Exports.arrives (h : f.Exports n) : f.Arrives n.id := by
  obtain ⟨hsteps, hsections⟩ := f.arrives_of_mem_linearize
  rcases h with ⟨s, hs, hn⟩ | ⟨s, hs, -, hn⟩
  · exact hsteps s hs n.id hn
  · exact hn ▸ hsections s hs

theorem Arrives.exports_jump (hd : (f.nodes.map Node.id).Nodup) (hn : n ∈ f.nodes)
    (ha : f.Arrives n.id) {j : Jump} (hb : n.body = .jump j) : f.Exports n := by
  obtain ⟨s, hs, ho⟩ := (ha.written hd hn).1 (by simp [Node.IsWritten, hb])
  exact Or.inl ⟨s, hs, ho.node?⟩

/-- Where connections lead to the hubs that jumps name, they lead to whatever can be reached. -/
theorem HubsConnected.reaches (hc : f.HubsConnected) (hd : (f.nodes.map Node.id).Nodup)
    (ha : f.Arrives id) : Reaches f.connections (entryIds f) id := by
  induction ha with
  | entry hn => exact .start (mem_entryIds (List.mem_of_find?_eq_some hn) (List.find?_some hn))
  | edge _ hl ih => exact ih.tail hl.connection
  | @jump a n j b h ha hn hb hf hj ih =>
    obtain ⟨hm, rfl⟩ := (node?_eq_some_iff hd).mp hn
    rw [jumpHub, Option.orElse_eq_orElse, Option.orElse_eq_or, Option.or_eq_some_iff] at hj
    rcases hj with hj | ⟨-, hj⟩
    · exact hc n hm (ha.exports_jump hd hm hb) j hb hf b h hj
    · -- a jump that names no hub takes the first one that a connection leads to
      obtain ⟨e, he, hj⟩ := List.exists_of_findSome?_eq_some hj
      obtain ⟨g, -, hj⟩ := Option.map_eq_some_iff.mp hj
      obtain ⟨rfl, -⟩ := Prod.mk.inj hj
      obtain ⟨c, hcm, hs, rfl⟩ := mem_outgoing.mp he
      exact ih.tail ⟨c, hcm, hs, rfl⟩

/-- The hub that an exported jump names has a section of its own. -/
theorem exports_namedHub (hd : (f.nodes.map Node.id).Nodup) (hn : n ∈ f.nodes) (hx : f.Exports n)
    {j : Jump} (hb : n.body = .jump j) (hf : j.flowShortcut = none) {b : String} {h : Hub}
    (hj : j.hub.bind f.index.resolveHub = some (b, h)) :
    ∃ m ∈ f.nodes, m.id = b ∧ m.body = .hub h ∧ f.Exports m := by
  have hjump : jumpHub f.index n.id j = some (b, h) := by
    rw [jumpHub, hj]
    rfl
  have ha : f.Arrives b :=
    hx.arrives.jump ((node?_eq_some_iff hd).mpr ⟨hn, rfl⟩) hb hf hjump
  have hhub := f.index_coherent.hub_of_jumpHub hjump
  obtain ⟨m, hm⟩ := f.index_coherent.node_of_hub hhub
  have hmb := body_of_hub? hd hm hhub
  obtain ⟨hmem, rfl⟩ := (node?_eq_some_iff hd).mp hm
  exact ⟨m, hmem, rfl, hmb, Or.inr ((ha.written hd hmem).2 h hmb)⟩

end Flow

/-- With distinct node ids, no node that the script of a flow mentions is reported as unreachable
exactly when connections lead to all hubs that its jumps name. -/
theorem Project.unreachable_exported (p : Project) (f : Flow)
    (hd : (f.nodes.map Node.id).Nodup) :
    (∀ r, .unreachableNode r ∈ p.validate.findings ↔
      ∃ g ∈ p.flows, .unreachableNode r ∈ unreachableIn g) ∧
    ((∀ n ∈ f.nodes, f.Exports n → .unreachableNode (n.ref f) ∉ unreachableIn f) ↔
      f.HubsConnected) := by
  refine ⟨fun r => unreachableNode_mem_validate, ?_, ?_⟩
  · intro h n hn hx j hb hf b g hj
    obtain ⟨m, hm, rfl, hmb, hmx⟩ := Flow.exports_namedHub hd hn hx hb hf hj
    have hr := h m hm hmx
    rw [unreachableNode_mem_unreachableIn hd hm] at hr
    obtain ⟨entry, he⟩ := hmx.arrives.entry_eq_some
    have hne : entryIds f ≠ [] :=
      List.ne_nil_of_mem (mem_entryIds (List.mem_of_find?_eq_some he) (List.find?_some he))
    have hme : m.isEntry = false := by simp [Node.isEntry, hmb]
    by_contra hnr
    exact hr ⟨hne, hme, hnr⟩
  · intro hc n hn hx
    rw [unreachableNode_mem_unreachableIn hd hn]
    rintro ⟨-, -, hr⟩
    exact hr (hc.reaches hd hx.arrives)

/-- An entry that leads to a jump, and the hub that the jump names with what follows it. -/
def Flow.crossing (further : List Connection) : Flow where
  id := "1"
  shortcut := some "crossing"
  name := "Crossing"
  description := none
  parentId := none
  isMain := true
  settings := []
  nodes := [.ofStored "start" "entry" [] none none,
    .ofStored "leave" "jump" [("hub_id", .str "camp")] none none,
    .ofStored "camp" "hub" [] none none, .ofStored "rest" "exit" [] none none]
  connections := ⟨none, "start", "output", "leave", none, none⟩ ::
    ⟨none, "camp", "output", "rest", none, none⟩ :: further

/-- A project with this flow alone. -/
def Project.crossing (further : List Connection) : Project :=
  ⟨⟨"1", "Crossing", none, none, []⟩, [], [.crossing further], [], [], .empty, []⟩

/-- A connection of the jump to its hub. -/
def Project.bridge : Connection :=
  ⟨none, "leave", "output", "camp", none, none⟩

theorem Project.crossing_connected :
    ((Flow.crossing [bridge]).nodes.map Node.id).Nodup ∧ (Flow.crossing [bridge]).HubsConnected ∧
      (Project.crossing [bridge]).validate.findings = [] := by
  have hd : ((Flow.crossing [bridge]).nodes.map Node.id).Nodup := by decide
  have hv : (Project.crossing [bridge]).validate.findings = [] := by decide +kernel
  obtain ⟨hreport, hiff⟩ := unreachable_exported (.crossing [bridge]) _ hd
  refine ⟨hd, hiff.mp fun n _ _ hr => ?_, hv⟩
  have hm := (hreport _).mpr ⟨_, List.mem_singleton_self _, hr⟩
  rw [hv] at hm
  exact List.not_mem_nil hm

theorem Project.crossing_unreachable :
    ((Flow.crossing []).nodes.map Node.id).Nodup ∧
      ∃ n ∈ (Flow.crossing []).nodes, (Flow.crossing []).Exports n ∧
        .unreachableNode (n.ref (.crossing [])) ∈ (Project.crossing []).validate.findings := by
  refine ⟨by decide, .ofStored "camp" "hub" [] none none, by decide +kernel, Or.inr ?_, ?_⟩
  · decide +kernel
  · decide +kernel

end StoryFlow
