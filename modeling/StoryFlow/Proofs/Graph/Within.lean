import StoryFlow.Proofs.Graph.Arrives
import StoryFlow.Proofs.Graph.Drain

/-! # Scripts stay within what is reachable

A set of ids that is closed under followed edges and jumps and holds the entry node holds every
node that the script mentions.
-/

namespace StoryFlow

/-- The node that a step comes from. -/
def Step.node? : Step → Option String
  | .dialogue id _ | .choicesStart id | .choice id _ _ | .choicesEnd id | .conditionStart id _
  | .conditionBranch id _ _ _ | .conditionEnd id _ | .instruction id _ | .scene id _
  | .subflow id _ | .jump id _ _ | .exit id => some id
  | .divert _ => none

/-- The steps of a script, those of its sections included. -/
def LinearScript.steps (s : LinearScript) : List Step :=
  s.main ++ s.sections.flatMap Section.steps

namespace Linearize

variable {index : Index} {R : String → Prop} {path : List String} {p q : Progress}

/-- The traversal does not lead out of a set of ids. -/
structure Closed (index : Index) (R : String → Prop) : Prop where
  edge : ∀ {n e}, index.node? n.id = some n → R n.id → e ∈ index.outgoing n.id →
    n.Follows e.pin → R e.target
  hub : ∀ {id h e}, index.hub? id = some h → R id → e ∈ index.outgoing id → R e.target
  jump : ∀ {n j id h}, index.node? n.id = some n → R n.id → n.body = .jump j →
    j.flowShortcut = none → jumpHub index n.id j = some (id, h) → R id

def StepsIn (R : String → Prop) (ss : List Step) : Prop :=
  ∀ s ∈ ss, ∀ id, s.node? = some id → R id

theorem StepsIn.append {ss ts : List Step} (hs : StepsIn R ss) (ht : StepsIn R ts) :
    StepsIn R (ss ++ ts) := by
  intro s hm
  rcases List.mem_append.mp hm with hm | hm
  · exact hs s hm
  · exact ht s hm

/-- Sections were asked for only for nodes of a set. -/
structure AsksIn (R : String → Prop) (p : Progress) : Prop where
  hubs : ∀ id ∈ p.hubsSeen, R id
  joins : ∀ e ∈ p.joinLabels, R e.1

theorem AsksIn.addHub (ha : AsksIn R p) {id : String} (h : Hub) (hi : R id) :
    AsksIn R (p.addHub id h) := by
  by_cases hm : id ∈ p.hubsSeen
  · rwa [Progress.addHub_of_mem h hm]
  · rw [Progress.addHub_of_not_mem h hm]
    exact ⟨List.forall_mem_cons.mpr ⟨hi, ha.hubs⟩, ha.joins⟩

theorem AsksIn.addJoin (ha : AsksIn R p) {node : Node} (hi : R node.id) :
    AsksIn R (p.addJoin node).2 := by
  cases hl : p.joinLabels.lookup node.id with
  | some label => rwa [Progress.addJoin_of_lookup hl]
  | none =>
    rw [Progress.addJoin_of_lookup_none hl]
    exact ⟨ha.hubs, List.forall_mem_cons.mpr ⟨hi, ha.joins⟩⟩

theorem AsksIn.enter (ha : AsksIn R p) (node : Node) : AsksIn R (enter node p) := by
  unfold Linearize.enter
  split
  · exact ⟨ha.hubs, ha.joins⟩
  · exact ha

theorem AsksIn.ask (ha : AsksIn R p) {hub : Option (String × Hub)}
    (hi : ∀ a ∈ hub, R a.1) : AsksIn R (ask hub p) := by
  cases hub with
  | none => exact ha
  | some a => exact ha.addHub a.2 (hi a rfl)

def Task.Within (R : String → Prop) : Task → Prop
  | .visit id => R id
  | .follow es => ∀ e ∈ es, R e.target
  | .arms as => ∀ a ∈ as, StepsIn R a.heads ∧ ∀ e ∈ a.edges, R e.target
  | .expand node => R node.id

/-- The steps of a plan come from its node, or divert to it when it is a hub. -/
theorem plan_forall (index : Index) {node : Node} {P : Step → Prop}
    (hstep : ∀ s : Step, s.node? = some node.id → P s)
    (hhub : ∀ h, node.body = .hub h → P (.divert (h.labelAt node.id))) :
    (∀ s ∈ (plan index node).opening, P s) ∧ (∀ s ∈ (plan index node).closing, P s) ∧
      ∀ a ∈ (plan index node).arms, ∀ s ∈ a.heads, P s := by
  have hone : ∀ s : Step, s.node? = some node.id → ∀ t ∈ [s], P t :=
    fun s hs => List.forall_mem_singleton.mpr (hstep s hs)
  unfold plan
  cases hb : node.body with
  | dialogue d =>
    by_cases hd : d.responses.isEmpty
    · simp only [hd, if_true]
      exact ⟨hone _ rfl, by simp, by simp⟩
    · simp only [hd]
      refine ⟨List.forall_mem_cons.mpr ⟨hstep _ rfl, hone _ rfl⟩, hone _ rfl, ?_⟩
      intro a ha
      obtain ⟨k, r, _, rfl⟩ := mem_choiceArms.mp ha
      exact hone _ rfl
  | branching b =>
    refine ⟨hone _ rfl, hone _ rfl, ?_⟩
    intro a ha
    obtain ⟨k, c, _, rfl⟩ := mem_branchArms.mp ha
    exact hone _ rfl
  | hub h => exact ⟨List.forall_mem_singleton.mpr (hhub h hb), by simp, by simp⟩
  | entry | unknown => simp
  | exit | instruction | scene | subflow | jump => exact ⟨hone _ rfl, by simp, by simp⟩

theorem plan_stepsIn (index : Index) {node : Node} (hr : R node.id) :
    StepsIn R (plan index node).opening ∧ StepsIn R (plan index node).closing ∧
      ∀ a ∈ (plan index node).arms, StepsIn R a.heads := by
  refine plan_forall index ?_ (by simp [Step.node?])
  intro s hs id hi
  obtain rfl := Option.some.inj (hs.symm.trans hi)
  exact hr

theorem Closed.plan_hub (hcl : Closed index R) {node : Node}
    (hn : index.node? node.id = some node) (hr : R node.id) :
    ∀ a ∈ (plan index node).hub, R a.1 := by
  intro a ha
  rcases plan_hub_eq_some ha with ⟨h, _, rfl⟩ | ⟨j, hb, hf, hj⟩
  · exact hr
  · exact hcl.jump hn hr hb hf hj

theorem Run.within (hc : index.Coherent) (hcl : Closed index R) {task : Task} {ss : List Step}
    (h : Run index path task p ss q) (hk : task.Known index) (ht : task.Within R)
    (ha : AsksIn R p) : StepsIn R ss ∧ AsksIn R q := by
  induction h with
  | missing | noEdge | noArm => exact ⟨by simp [StepsIn], ha⟩
  | onPath => exact ⟨by simp [StepsIn, closing, Step.node?], ha⟩
  | shared hn _ _ _ =>
    obtain rfl := hc.node_id hn
    exact ⟨by simp [StepsIn, Step.node?], ha.addJoin ht⟩
  | entered hn _ _ _ ih =>
    obtain rfl := hc.node_id hn
    exact ih hn ht (ha.enter _)
  | edge _ _ ih ih' =>
    obtain ⟨hs, ha⟩ := ih trivial (ht _ List.mem_cons_self) ha
    obtain ⟨hs', ha⟩ := ih' trivial (fun e he => ht e (List.mem_cons_of_mem _ he)) ha
    exact ⟨hs.append hs', ha⟩
  | arm _ _ ih ih' =>
    obtain ⟨hh, he⟩ := ht _ List.mem_cons_self
    obtain ⟨hs, ha⟩ := ih trivial he ha
    obtain ⟨hs', ha⟩ := ih' trivial (fun a hm => ht a (List.mem_cons_of_mem _ hm)) ha
    exact ⟨hh.append (hs.append hs'), ha⟩
  | @expand path node p ss q _ ih =>
    obtain ⟨ho, hcs, hh⟩ := plan_stepsIn index ht
    have hw : (Task.arms (plan index node).arms).Within R := by
      intro a hm
      refine ⟨hh a hm, fun e he => ?_⟩
      obtain ⟨hout, hp⟩ := mem_plan_edges.mp ⟨a, hm, he⟩
      exact hcl.edge hk ht hout hp
    obtain ⟨hs, ha⟩ := ih trivial hw (ha.ask (hcl.plan_hub hk ht))
    exact ⟨ho.append (hs.append hcs), ha⟩

theorem SectionRun.within (hc : index.Coherent) (hcl : Closed index R) {pending : Pending}
    {s : Section} (h : SectionRun index pending p s q) (hp : Asked index p pending)
    (ha : AsksIn R p) : StepsIn R s.steps ∧ AsksIn R q ∧ R s.node := by
  cases h with
  | @hub id h p ss q h =>
    have hi := ha.hubs id hp.1
    have hw : (Task.follow (index.outgoing id)).Within R := fun e he => hcl.hub hp.2 hi he
    exact ⟨(h.within hc hcl trivial hw ha).1, (h.within hc hcl trivial hw ha).2, hi⟩
  | @join node label p ss q h =>
    have hi := ha.joins _ hp.1
    exact ⟨(h.within hc hcl hp.2.1 hi ha).1, (h.within hc hcl hp.2.1 hi ha).2, hi⟩

theorem Drain.within (hc : index.Coherent) (hcl : Closed index R) {ss : List Section}
    (h : Drain index p ss q) (hs : Sound index p) (ha : AsksIn R p) :
    ∀ s ∈ ss, StepsIn R s.steps ∧ R s.node := by
  induction h with
  | empty => simp
  | next hq h _ ih =>
    have hp := hs.asked_head hq
    obtain ⟨hss, ha', hn⟩ := h.within hc hcl hp ⟨ha.hubs, ha.joins⟩
    exact List.forall_mem_cons.mpr ⟨⟨hss, hn⟩, ih (h.sound hc hp (hs.pop hq)) ha'⟩

/-- The script mentions only nodes of a closed set with the entry node. -/
theorem ScriptRun.within (hc : index.Coherent) (hcl : Closed index R) {entry : Node}
    {script : LinearScript} (h : ScriptRun index entry script p q) (he : R entry.id) :
    StepsIn R script.steps ∧ ∀ s ∈ script.sections, R s.node := by
  have hm := h.main.within hc hcl trivial he ⟨by simp [start], by simp [start]⟩
  have hd := h.drain.within hc hcl (h.sound_main hc) hm.2
  refine ⟨hm.1.append ?_, fun s hs => (hd s hs).2⟩
  intro t ht
  obtain ⟨s, hs, ht⟩ := List.mem_flatMap.mp ht
  exact (hd s hs).1 t ht

end Linearize

namespace Flow

theorem closed_arrives (f : Flow) : Linearize.Closed f.index f.Arrives where
  edge hn hr he hp := by
    obtain ⟨c, hc, hsrc, rfl⟩ := mem_outgoing.mp he
    exact hr.edge (hsrc ▸ .node hc (hsrc ▸ hn) hp)
  hub hh hr he := by
    obtain ⟨c, hc, hsrc, rfl⟩ := mem_outgoing.mp he
    exact hr.edge (hsrc ▸ .hub hc (hsrc ▸ hh))
  jump hn hr hb hf hj := hr.jump hn hb hf hj

theorem linearize_of_no_entry (f : Flow) (he : f.index.entry = none) :
    f.linearize = ⟨[], []⟩ := by
  rw [linearize, Index.linearize, Linearize.bounded, he]

/-- The script of a flow mentions only nodes that can be reached. -/
theorem arrives_of_mem_linearize (f : Flow) :
    Linearize.StepsIn f.Arrives f.linearize.steps ∧
      ∀ s ∈ f.linearize.sections, f.Arrives s.node := by
  cases he : f.index.entry with
  | none => simp [f.linearize_of_no_entry he, LinearScript.steps, Linearize.StepsIn]
  | some entry =>
    obtain ⟨p, q, h⟩ := Linearize.scriptRun_linearize f.index_coherent he
    exact h.within f.index_coherent f.closed_arrives (.entry he)

end Flow

end StoryFlow
