import StoryFlow.Proofs.Graph.Covers

/-! # Scripts hold exactly what is reachable

With distinct ids, a node that is written out has its opening step somewhere in the script, and a
hub has a section, exactly when the entry node leads to it.
-/

namespace StoryFlow

/-- A node that is written out by steps that carry its id. -/
def Node.IsWritten (n : Node) : Prop :=
  match n.body with
  | .dialogue _ | .branching _ | .instruction _ | .scene _ | .subflow _ | .jump _ | .exit _ => True
  | .entry | .hub _ | .unknown => False

/-- A step is the first one that a node is written out by. -/
def Step.Opens (n : Node) : Step → Prop
  | .dialogue id d => id = n.id ∧ n.body = .dialogue d
  | .conditionStart id b => id = n.id ∧ n.body = .branching b
  | .instruction id assignments => id = n.id ∧ n.body = .instruction assignments
  | .scene id s => id = n.id ∧ n.body = .scene s
  | .subflow id s => id = n.id ∧ n.body = .subflow s
  | .jump id j _ => id = n.id ∧ n.body = .jump j
  | .exit id => id = n.id ∧ ∃ t, n.body = .exit t
  | .choicesStart _ | .choice _ _ _ | .choicesEnd _ | .conditionBranch _ _ _ _
  | .conditionEnd _ _ | .divert _ => False

theorem Step.Opens.node? {n : Node} {s : Step} (h : s.Opens n) : s.node? = some n.id := by
  cases s <;> simp_all [Opens, Step.node?]

theorem Linearize.plan_opens (index : Index) {n : Node} (h : n.IsWritten) :
    ∃ s ∈ (plan index n).opening, s.Opens n := by
  unfold Node.IsWritten at h
  unfold plan
  cases hb : n.body with
  | entry | hub | unknown => simp [hb] at h
  | dialogue d =>
    refine ⟨.dialogue n.id d, ?_, rfl, hb⟩
    simp only
    split <;> exact List.mem_cons_self
  | branching b => exact ⟨_, List.mem_singleton_self _, rfl, hb⟩
  | instruction | scene | subflow | jump => exact ⟨_, List.mem_singleton_self _, rfl, hb⟩
  | exit t => exact ⟨_, List.mem_singleton_self _, rfl, t, hb⟩

namespace Flow

open Linearize

variable {f : Flow} {entry n : Node} {script : LinearScript} {p q : Progress}
  {entered : List String} {id : String}

theorem entered_or_seen_of_met (hm : Met f.index q.hubsSeen (start f.index) entered id)
    (hn : f.index.node? id = some n) : id ∈ entered ∨ id ∈ q.hubsSeen := by
  rcases hm with hi | hi | hi | hi
  · simp [hi] at hn
  · exact Or.inl hi
  · exact Or.inr hi
  · simp [start] at hi

/-- What has been met and is not a hub has been entered. -/
theorem entered_of_met (hd : (f.nodes.map Node.id).Nodup) (hs : Sound f.index q)
    (hm : Met f.index q.hubsSeen (start f.index) entered n.id)
    (hn : f.index.node? n.id = some n) (hb : n.hub? = none) : n.id ∈ entered := by
  rcases entered_or_seen_of_met hm hn with hi | hi
  · exact hi
  · obtain ⟨h, hh⟩ := hs.hubs_known _ hi
    simp [Node.hub?, body_of_hub? hd hn hh] at hb

/-- A hub that has been met has been asked for. -/
theorem seen_of_met (hcov : Covered f.index entry script q entered)
    (hm : Met f.index q.hubsSeen (start f.index) entered n.id)
    (hn : f.index.node? n.id = some n) {h : Hub} (hb : n.body = .hub h) : n.id ∈ q.hubsSeen := by
  rcases entered_or_seen_of_met hm hn with hi | hi
  · exact hcov.covers.asked hn hi (plan_hub_of_hub hb)
  · exact hi

theorem Arrives.entry_eq_some (ha : f.Arrives id) : ∃ entry, f.index.entry = some entry := by
  induction ha with
  | entry hn => exact ⟨_, hn⟩
  | edge _ _ ih => exact ih
  | jump _ _ _ _ _ ih => exact ih

/-- Whatever is reachable has been entered, or is a hub with a section. -/
theorem Arrives.met (hd : (f.nodes.map Node.id).Nodup) (he : f.index.entry = some entry)
    (h : ScriptRun f.index entry script p q) (hcov : Covered f.index entry script q entered)
    (ha : f.Arrives id) : Met f.index q.hubsSeen (start f.index) entered id := by
  have hc := f.index_coherent
  have hs := h.sound hc
  induction ha with
  | entry hn =>
    obtain rfl := Option.some.inj (he.symm.trans hn)
    exact hcov.entry
  | @edge a b ha hl ih =>
    cases hl with
    | @node n c hm hn hf =>
      have hid := hc.node_id hn
      rw [← hid] at hn ih
      have hb : n.hub? = none := by
        cases hb : n.hub? with
        | none => rfl
        | some g => simp [Node.Follows, Node.hub?_eq_some_iff.mp hb] at hf
      have hi := entered_of_met hd hs ih hn hb
      exact hcov.covers.edges hn hi (mem_outgoing.mpr ⟨c, hm, hid.symm, rfl⟩) hf
    | @hub g c hm hg =>
      obtain ⟨n, hn⟩ := hc.node_of_hub hg
      have hb := body_of_hub? hd hn hg
      have hid := hc.node_id hn
      rw [← hid] at hn ih
      obtain ⟨s, hs, hk, hsn⟩ := h.hub_section hc (seen_of_met hcov ih hn hb)
      exact hcov.hubs s hs hk (.ofConnection c)
        (mem_outgoing.mpr ⟨c, hm, (hsn.trans hid).symm, rfl⟩)
  | @jump a n j b g ha hn hb hf hj ih =>
    obtain rfl := hc.node_id hn
    have hi := entered_of_met hd hs ih hn (by simp [Node.hub?, hb])
    have hp : (plan f.index n).hub = some (b, g) := by
      rw [plan_hub_of_jump hb, jumpAsks, if_pos hf, hj]
    exact Or.inr (Or.inr (Or.inl (hcov.covers.asked hn hi hp)))

/-- What a script with an entry node holds of the nodes that are reachable. -/
theorem Arrives.written (hd : (f.nodes.map Node.id).Nodup) (hn : n ∈ f.nodes)
    (ha : f.Arrives n.id) :
    (n.IsWritten → ∃ s ∈ f.linearize.steps, s.Opens n) ∧
      ∀ h, n.body = .hub h → ∃ s ∈ f.linearize.sections, s.kind = .hub ∧ s.node = n.id := by
  have hc := f.index_coherent
  obtain ⟨entry, he⟩ := ha.entry_eq_some
  obtain ⟨p, q, h⟩ := scriptRun_linearize hc he
  obtain ⟨entered, hcov⟩ := h.covered hc
  have hm := ha.met hd he h hcov
  have hn := (node?_eq_some_iff hd).mpr ⟨hn, rfl⟩
  constructor
  · intro hw
    have hb : n.hub? = none := by
      unfold Node.IsWritten at hw
      unfold Node.hub?
      split <;> simp_all
    have hi := entered_of_met hd (h.sound hc) hm hn hb
    obtain ⟨s, hs, ho⟩ := plan_opens f.index hw
    exact ⟨s, hcov.covers.opening hn hi hs, ho⟩
  · intro g hb
    exact h.hub_section hc (seen_of_met hcov hm hn hb)

/-- With distinct ids, a node has its opening step in the script of its flow exactly when it can be
reached, no step comes from any other node, and a hub has a section exactly when it can be
reached. -/
theorem linearize_exactly_arrives (f : Flow) (hd : (f.nodes.map Node.id).Nodup) :
    (∀ n ∈ f.nodes, n.IsWritten →
      ((∃ s ∈ f.linearize.steps, s.Opens n) ↔ f.Arrives n.id)) ∧
    (∀ s ∈ f.linearize.steps, ∀ id, s.node? = some id → f.Arrives id) ∧
    (∀ n ∈ f.nodes, ∀ h, n.body = .hub h →
      ((∃ s ∈ f.linearize.sections, s.kind = .hub ∧ s.node = n.id) ↔ f.Arrives n.id)) := by
  obtain ⟨hsteps, hsections⟩ := f.arrives_of_mem_linearize
  refine ⟨?_, hsteps, ?_⟩
  · intro n hn hw
    constructor
    · rintro ⟨s, hs, ho⟩
      exact hsteps s hs n.id ho.node?
    · intro ha
      exact (ha.written hd hn).1 hw
  · intro n hn h hb
    constructor
    · rintro ⟨s, hs, _, hsn⟩
      exact hsn ▸ hsections s hs
    · intro ha
      exact (ha.written hd hn).2 h hb

theorem roundTrip_exactly_arrives :
    (roundTrip.nodes.map Node.id).Nodup ∧ roundTrip.Arrives "reply" ∧
      ∃ s ∈ roundTrip.linearize.steps, s.Opens (line "reply" []) := by
  have hstart : roundTrip.Arrives "start" := .entry (n := ⟨"start", "entry", [], none, .entry⟩) rfl
  have hask : roundTrip.Leads "start" "ask" := .node (c := ⟨none, "start", "", "ask", none, none⟩)
    (by simp [roundTrip]) ((node?_eq_some_iff roundTrip_nodup).mpr ⟨List.mem_cons_self, rfl⟩)
    trivial
  have hreply : roundTrip.Leads "ask" "reply" :=
    .node (c := ⟨none, "ask", "response_yes", "reply", none, none⟩) (by simp [roundTrip])
      ((node?_eq_some_iff roundTrip_nodup).mpr
        ⟨List.mem_cons_of_mem _ List.mem_cons_self, rfl⟩)
      (Or.inr ⟨_, List.mem_cons_self, rfl⟩)
  have ha := (hstart.edge hask).edge hreply
  have hm : line "reply" [] ∈ roundTrip.nodes := by simp [roundTrip]
  exact ⟨roundTrip_nodup, ha,
    ((linearize_exactly_arrives roundTrip roundTrip_nodup).1 _ hm trivial).mpr ha⟩

end Flow

end StoryFlow
