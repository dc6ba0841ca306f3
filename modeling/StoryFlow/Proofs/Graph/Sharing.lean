import Mathlib.Logic.Relation
import StoryFlow.Proofs.Graph.Unfold

/-! # Sharing is invisible

Join sections keep a script from repeating what several branches lead to. When every cycle passes
through a hub, putting the steps of the join sections back in the place of the diverts to them
gives what the traversal would write if it never looked at what it wrote before.
-/

namespace StoryFlow.Flow

open Linearize

variable {f : Flow} {a b id : String} {path path' : List String} {entry node : Node}
  {script : LinearScript} {first last p q : Progress} {ss : List Step} {depth n : Nat}

section Paths

def IsHub (f : Flow) (id : String) : Prop :=
  ∃ node h, f.index.node? id = some node ∧ node.body = .hub h

/-- An edge that is followed from anything but a hub. -/
def Onward (f : Flow) (a b : String) : Prop :=
  f.Leads a b ∧ ¬ f.IsHub a

/-- Every cycle of edges that can be reached passes through a hub. -/
def HubsCutCycles (f : Flow) : Prop :=
  ∀ id, f.Arrives id → ¬ Relation.TransGen f.Onward id id

theorem roundTrip_hubsCutCycles : roundTrip.HubsCutCycles := by
  have hagain : roundTrip.IsHub "again" :=
    ⟨⟨"again", "hub", [], none, .hub ⟨none, none, none⟩⟩, ⟨none, none, none⟩,
      (node?_eq_some_iff roundTrip_nodup).mpr ⟨by simp [roundTrip], rfl⟩, rfl⟩
  have hrank : ∀ {a b}, roundTrip.Onward a b →
      ["start", "ask", "reply"].idxOf a < ["start", "ask", "reply"].idxOf b := by
    rintro a b ⟨hl, hh⟩
    obtain ⟨c, hc, rfl, rfl⟩ := hl.connection
    simp only [roundTrip, List.mem_cons, List.not_mem_nil, or_false] at hc
    rcases hc with rfl | rfl | rfl | rfl | rfl
    · decide
    · decide
    · decide
    · decide
    · exact absurd hagain hh
  have hlt : ∀ {a b}, Relation.TransGen roundTrip.Onward a b →
      ["start", "ask", "reply"].idxOf a < ["start", "ask", "reply"].idxOf b := by
    intro a b h
    induction h with
    | single h => exact hrank h
    | tail _ h ih => exact Nat.lt_trans ih (hrank h)
  intro id _ h
  exact absurd (hlt h) (Nat.lt_irrefl _)

/-- What is on a path is a hub or leads on to the node that the path ends at. -/
def Behind (f : Flow) (path : List String) (id : String) : Prop :=
  ∀ a ∈ path, f.IsHub a ∨ Relation.TransGen f.Onward a id

theorem Behind.nil : f.Behind [] id := by
  simp [Behind]

/-- A path comes back only to hubs. -/
theorem Behind.isHub (hcut : f.HubsCutCycles) (ha : f.Arrives id) (hb : f.Behind path id)
    (hi : id ∈ path) : f.IsHub id := by
  rcases hb id hi with h | h
  · exact h
  · exact absurd h (hcut id ha)

theorem Behind.body (hcut : f.HubsCutCycles) (ha : f.Arrives node.id)
    (hb : f.Behind path node.id) (hn : f.index.node? node.id = some node) (hi : node.id ∈ path) :
    ∃ h, node.body = .hub h := by
  obtain ⟨m, h, hm, hbody⟩ := hb.isHub hcut ha hi
  obtain rfl := Option.some.inj (hn.symm.trans hm)
  exact ⟨h, hbody⟩

theorem Behind.next (hb : f.Behind path a) (ho : f.Onward a b) : f.Behind (a :: path) b := by
  intro c hc
  rcases List.mem_cons.mp hc with rfl | hc
  · exact Or.inr (.single ho)
  · exact (hb c hc).imp_right (fun h => h.tail ho)

/-- A hub stands behind its edges even when its node is hidden by another one with its id. -/
theorem Behind.hub (hl : f.Leads a b) : f.Behind [a] b := by
  intro c hc
  obtain rfl := List.mem_singleton.mp hc
  by_cases hh : f.IsHub c
  · exact Or.inl hh
  · exact Or.inr (.single ⟨hl, hh⟩)

theorem onward_of_plan (hn : f.index.node? node.id = some node) {e : Edge}
    (he : ∃ a ∈ (plan f.index node).arms, e ∈ a.edges) : f.Onward node.id e.target := by
  obtain ⟨hout, hf⟩ := mem_plan_edges.mp he
  obtain ⟨c, hc, hsrc, rfl⟩ := mem_outgoing.mp hout
  refine ⟨hsrc ▸ .node hc (hsrc ▸ hn) hf, ?_⟩
  rintro ⟨m, h, hm, hb⟩
  obtain rfl := Option.some.inj (hn.symm.trans hm)
  simp [Node.Follows, hb] at hf

end Paths

section Simulation

/-- On arrival at a node, the steps of a shared traversal unfold to those of one that shares
nothing, whatever paths the two came by. -/
def Unfolds (f : Flow) (script : LinearScript) (last : Progress) (depth : Nat) : Prop :=
  ∀ path path' id p ss q n, Run f.index path (.visit id) p ss q → Extends q last →
    f.Arrives id → f.Behind path id → f.Behind path' id → IsPath f.index path' →
    f.index.nodes.length < depth + path'.length → f.index.nodes.length < n + path'.length →
    script.unfold^[n] ss = inlined f.index depth path' id

theorem Unfolds.expand (hr : ScriptRun f.index entry script first last)
    (hu : f.Unfolds script last depth) (hn : f.index.node? node.id = some node)
    (ha : f.Arrives node.id) (hb : f.Behind path node.id) (hb' : f.Behind path' node.id)
    (hp : IsPath f.index path') (hi : node.id ∉ path')
    (hd : f.index.nodes.length < depth + 1 + path'.length)
    (hrounds : f.index.nodes.length < n + 1 + path'.length)
    (h : Run f.index (node.id :: path) (.expand node) p ss q) (hx : Extends q last) :
    script.unfold^[n] ss = inlineNode f.index (inlined f.index depth (node.id :: path')) node := by
  refine h.unfold_expand f.index_coherent hr hn ?_ hx
  intro e he p ss q hv hx
  have ho := onward_of_plan hn he
  refine hu _ _ _ p ss q n hv hx (ha.edge ho.1) (hb.next ho) (hb'.next ho) (hp.cons hn hi) ?_ ?_
  · rw [List.length_cons]
    omega
  · rw [List.length_cons]
    omega

theorem inlined_of_hub {h : Hub} (hn : f.index.node? node.id = some node)
    (hb : node.body = .hub h) : inlined f.index (depth + 1) path node.id = closing node := by
  rw [inlined, hn]
  simp only [inlineNode_of_hub hb, ite_self]

theorem Unfolds.shared (hr : ScriptRun f.index entry script first last)
    (hu : f.Unfolds script last depth) (hn : f.index.node? node.id = some node)
    (ha : f.Arrives node.id) (hb : f.Behind path node.id) (hp : IsPath f.index path)
    (hi : node.id ∉ path) (hd : f.index.nodes.length < depth + 1 + path.length)
    (hrounds : f.index.nodes.length < n + path.length)
    (hx : Extends (p.addJoin node).2 last) :
    script.unfold^[n] [.divert (p.addJoin node).1] =
      inlineNode f.index (inlined f.index depth (node.id :: path)) node := by
  have hc := f.index_coherent
  have hl := hx.joins (Progress.addJoin_mem p node)
  obtain ⟨t, ht⟩ := hr.joinSection?_isSome hc hl
  obtain ⟨m, p', q', hm, hlm, hrun, hx'⟩ := hr.joinSection hc ht
  obtain ⟨hid, -⟩ := Prod.mk.inj
    (List.inj_on_of_nodup_map (hr.sound hc).labels_nodup hlm hl rfl)
  rw [hid] at hm hrun
  obtain rfl := Option.some.inj (hm.symm.trans hn)
  have hlen := (hp.cons hn hi).length_le
  rw [List.length_cons] at hlen
  obtain ⟨k, rfl⟩ : ∃ k, n = k + 1 := ⟨n - 1, by omega⟩
  rw [LinearScript.iterate_unfold_divert ht]
  exact hu.expand hr hn ha .nil hb hp hi hd hrounds hrun hx'

/-- By induction on the depth of the traversal that shares nothing, which may be deeper than the
shared one. -/
theorem unfolds (hcut : f.HubsCutCycles) (hr : ScriptRun f.index entry script first last) :
    ∀ depth, f.Unfolds script last depth
  | 0 => by
    intro path path' id p ss q n _ _ _ _ _ hp hd
    have := hp.length_le
    omega
  | depth + 1 => by
    have hu := unfolds hcut hr depth
    have hc := f.index_coherent
    intro path path' id p ss q n h hx ha hb hb' hp hd hrounds
    cases h with
    | missing hn =>
      rw [inlined, hn]
      exact LinearScript.iterate_unfold_of_not_joins (by simp) n
    | onPath hn hi =>
      obtain rfl := hc.node_id hn
      obtain ⟨g, hg⟩ := hb.body hcut ha hn hi
      rw [inlined_of_hub hn hg]
      exact LinearScript.iterate_unfold_of_not_joins (hr.settled_closing hc hn) n
    | @shared _ _ node _ hn _ hbody _ =>
      obtain rfl := hc.node_id hn
      have hi : node.id ∉ path' := by
        intro hi
        obtain ⟨g, hg⟩ := hb'.body hcut ha hn hi
        simp [Node.hasBody, hg] at hbody
      rw [inlined, hn]
      simp only [if_neg hi]
      exact hu.shared hr hn ha hb' hp hi (by omega) hrounds hx
    | @entered _ _ node _ _ _ hn _ _ h =>
      obtain rfl := hc.node_id hn
      by_cases hi : node.id ∈ path'
      · obtain ⟨g, hg⟩ := hb'.body hcut ha hn hi
        rw [inlined_of_hub hn hg, h.expand_hub hg]
        exact LinearScript.iterate_unfold_of_not_joins (hr.settled_closing hc hn) n
      · rw [inlined, hn]
        simp only [if_neg hi]
        exact hu.expand hr hn ha hb hb' hp hi (by omega) (by omega) h hx

end Simulation

section Script

theorem unfold_main (hcut : f.HubsCutCycles) (hr : ScriptRun f.index entry script first last)
    (he : f.index.entry = some entry) (hd : f.index.nodes.length < depth)
    (hn : f.index.nodes.length < n) :
    script.unfold^[n] script.main = inlined f.index depth [] entry.id :=
  unfolds hcut hr depth _ _ _ _ _ _ _ hr.main (hr.extends f.index_coherent) (.entry he) .nil .nil
    .nil (by simpa using hd) (by simpa using hn)

theorem unfold_hub (hcut : f.HubsCutCycles) (hr : ScriptRun f.index entry script first last)
    (hd : f.index.nodes.length < depth) (hn : f.index.nodes.length < n) {s : Section}
    (hs : s ∈ script.sections) (ha : f.Arrives s.node) (hk : s.kind = .hub) :
    script.unfold^[n] s.steps =
      inlineEdges (inlined f.index depth [s.node]) (f.index.outgoing s.node) := by
  have hc := f.index_coherent
  obtain ⟨pending, p, q, h, hp, -, -, hx⟩ := hr.written hc s hs
  cases h with
  | join => simp at hk
  | @hub id g _ ss _ h =>
    obtain ⟨m, hm⟩ := hc.node_of_hub hp.2
    refine h.unfold_follow hc ?_ hx
    intro e he p ss q hv hx
    obtain ⟨c, hcm, hsrc, rfl⟩ := mem_outgoing.mp he
    have hl : f.Leads id c.target := hsrc ▸ .hub hcm (hsrc ▸ hp.2)
    refine unfolds hcut hr depth _ _ _ p ss q n hv hx (ha.edge hl) (.hub hl) (.hub hl)
      (.singleton hm) (by omega) (by omega)

end Script

/-- What a traversal without sharing writes on arrival at the entry node. -/
def unsharedMain (f : Flow) (depth : Nat) (p : Progress) : List Step :=
  f.index.entry.elim [] fun entry => (unshared f.index depth [] entry.id p).1

/-- What a traversal without sharing writes for the section of a hub. -/
def unsharedHub (f : Flow) (depth : Nat) (id : String) (p : Progress) : List Step :=
  (follow (unshared f.index depth [id]) (f.index.outgoing id) p).1

/-- When hubs cut all cycles, unfolding the join sections of a script gives what is written without
sharing, for its main steps and for every hub, and leaves no divert to a join section. -/
theorem unfold_linearize (f : Flow) (hcut : f.HubsCutCycles) {depth rounds : Nat}
    (hd : f.index.nodes.length < depth) (hr : f.index.nodes.length < rounds) (p : Progress) :
    (f.linearize.unfold^[rounds] f.linearize.main = f.unsharedMain depth p ∧
      Settled f.linearize (f.linearize.unfold^[rounds] f.linearize.main)) ∧
    ∀ s ∈ f.linearize.sections, s.kind = .hub →
      f.linearize.unfold^[rounds] s.steps = f.unsharedHub depth s.node p ∧
        Settled f.linearize (f.linearize.unfold^[rounds] s.steps) := by
  have hc := f.index_coherent
  cases he : f.index.entry with
  | none =>
    simp only [f.linearize_of_no_entry he, unsharedMain, he, Option.elim_none]
    rw [LinearScript.iterate_unfold_of_not_joins (by simp)]
    simp [Settled]
  | some entry =>
    obtain ⟨first, last, h⟩ := scriptRun_linearize hc he
    constructor
    · rw [unsharedMain, he, Option.elim_some, unshared_fst hc]
      have hm := unfold_main hcut h he hd hr
      exact ⟨hm, hm ▸ h.settled_inlined hc _ _ _⟩
    · intro s hs hk
      have ha := f.arrives_of_mem_linearize.2 s hs
      have hm := unfold_hub hcut h hd hr hs ha hk
      rw [unsharedHub, follow_fst (unshared_fst hc _ _)]
      refine ⟨hm, ?_⟩
      have hset : Settled f.linearize
          (inlineEdges (inlined f.index depth [s.node]) (f.index.outgoing s.node)) :=
        .flatMap fun e _ => h.settled_inlined hc _ _ _
      exact hm ▸ hset

theorem roundTrip_unfold_linearize :
    roundTrip.HubsCutCycles ∧ roundTrip.index.nodes.length < 5 ∧
      roundTrip.linearize.unfold^[5] roundTrip.linearize.main =
        roundTrip.unsharedMain 5 (start roundTrip.index) := by
  have hn : roundTrip.index.nodes.length < 5 := by decide
  exact ⟨roundTrip_hubsCutCycles, hn,
    (unfold_linearize roundTrip roundTrip_hubsCutCycles hn hn (start roundTrip.index)).1.1⟩

end StoryFlow.Flow
