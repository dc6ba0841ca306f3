import StoryFlow.Proofs.Graph.Origin
import StoryFlow.Proofs.Graph.Targets
import StoryFlow.Proofs.Ink.Transfers
import StoryFlow.Proofs.Script.FlowNames
import StoryFlow.Proofs.Yarn.Transfers
import StoryFlow.Validate.Reference

/-! # Transfers of validated projects

A validation looks at the flows that subflows name, but not at those that jumps name, and it passes
a subflow that names none. With these two provisos every jump, divert and tunnel of a validated
project leads to something that its scripts define.
-/

namespace StoryFlow

section Known

variable {p : Project} {f : Flow} {n : Node} {s : Subflow} {j : Jump}

/-- The jumps of a flow to other flows name flows of the list. -/
def Flow.JumpsKnown (flows : List Flow) (f : Flow) : Prop :=
  ∀ n ∈ f.nodes, ∀ j, n.body = .jump j → ∀ shortcut, j.flowShortcut = some shortcut →
    ∃ g ∈ flows, given g.shortcut = some shortcut

/-- The subflows of a flow name a flow in some way. -/
def Flow.SubflowsNamed (f : Flow) : Prop :=
  ∀ n ∈ f.nodes, ∀ s, n.body = .subflow s →
    given s.flowId ≠ none ∨ given s.flowShortcut ≠ none

theorem given_eq_some {t : Option String} {s : String} (h : given t = some s) : t = some s :=
  (Option.filter_eq_some_iff.mp h).1

/-- A validation without errors found no broken reference. -/
theorem Project.not_mem_brokenReferences (hv : p.validate.errors = []) (r : NodeRef)
    (target : Target) (ref : String) :
    .brokenReference r target ref ∉ Validate.brokenReferences p := by
  intro hm
  have he : .brokenReference r target ref ∈ p.validate.errors := by
    refine List.mem_filter.mpr ⟨?_, rfl⟩
    simp only [validate, List.mem_append]
    exact Or.inl (Or.inl (Or.inr hm))
  simp [hv] at he

theorem Project.subflow_known (hv : p.validate.errors = []) (hf : f ∈ p.flows)
    (hn : n ∈ f.nodes) (hb : n.body = .subflow s) : s.flowTarget.Known p.flows := by
  have hnone : Validate.brokenTarget p.flows s = none := by
    rw [Option.eq_none_iff_forall_not_mem]
    intro ref href
    refine not_mem_brokenReferences hv (n.ref f) .flow ref ?_
    have hm : .brokenReference (n.ref f) .flow ref ∈ Validate.brokenFlows p.flows f := by
      refine List.mem_filterMap.mpr ⟨n, hn, ?_⟩
      simp [Node.subflow?, hb, Option.mem_def.mp href]
    exact List.mem_append_left _ (List.mem_append_right _ (List.mem_flatMap.mpr ⟨f, hf, hm⟩))
  simp only [Validate.brokenTarget, Option.orElse_eq_orElse, Option.orElse_eq_or,
    Option.or_eq_none_iff, Option.filter_eq_none_iff] at hnone
  obtain ⟨hid, hshortcut⟩ := hnone
  constructor
  · intro id hi
    simpa using hid id (given_eq_some hi)
  · intro shortcut hs
    simpa using hshortcut shortcut (given_eq_some hs)

/-- A jump to a flow that is there leads to its name. -/
theorem FlowNames.resolve_jump {shortcut : String} {flows : List Flow} (guard : String)
    (h : ∃ g ∈ flows, given g.shortcut = some shortcut) :
    ∃ name, (ofFlows guard flows).resolve guard ⟨none, some shortcut⟩ = some name ∧
      Names guard flows name := by
  have hk : FlowTarget.Known flows ⟨none, some shortcut⟩ :=
    ⟨by simp [given], fun s hs => Option.some.inj (given_eq_some hs) ▸ h⟩
  rcases hk.resolve guard with hr | ⟨-, -, hn⟩
  · exact hr
  · obtain ⟨g, -, hg⟩ := h
    have hs : given (some shortcut) = some shortcut := given_eq_some hg ▸ hg
    simp [hs] at hn

end Known

section Steps

variable {p : Project} {f : Flow} {id target : String} (guard : String)

/-- A subflow of a validated project leads to a flow, unless it names none. -/
theorem Flow.subflow_leads (hv : p.validate.errors = []) (hf : f ∈ p.flows) {s : Subflow}
    (hm : .subflow id s ∈ f.linearize.steps) :
    (∃ name, (FlowNames.ofFlows guard p.flows).resolve guard s.flowTarget = some name ∧
      FlowNames.Names guard p.flows name) ∨
    (FlowNames.ofFlows guard p.flows).resolve guard s.flowTarget = none ∧ ¬ f.SubflowsNamed := by
  obtain ⟨n, hn, -, hb⟩ := f.comesFrom_linearize _ hm
  refine ((p.subflow_known hv hf hn hb).resolve guard).imp_right ?_
  rintro ⟨hr, hi, hs⟩
  exact ⟨hr, fun h => (h n hn s hb).elim (absurd hi) (absurd hs)⟩

/-- A jump leads to a flow when it names one, and else to a section, unless there is no hub. -/
theorem Flow.jump_leads (hj : f.JumpsKnown p.flows) {j : Jump}
    (hm : .jump id j target ∈ f.linearize.steps) :
    (∃ shortcut name, j.flowShortcut = some shortcut ∧
      (FlowNames.ofFlows guard p.flows).resolve guard ⟨none, some shortcut⟩ = some name ∧
      FlowNames.Names guard p.flows name) ∨
    j.flowShortcut = none ∧ (target ≠ "unknown" →
      ∃ s ∈ f.linearize.sections, s.label = target) := by
  obtain ⟨n, hn, -, hb⟩ := f.comesFrom_linearize _ hm
  cases hs : j.flowShortcut with
  | some shortcut =>
    obtain ⟨name, hr, hnames⟩ := FlowNames.resolve_jump guard (hj n hn j hb _ hs)
    exact Or.inl ⟨shortcut, name, rfl, hr, hnames⟩
  | none => exact Or.inr ⟨rfl, f.lands_linearize _ hm hs⟩

end Steps

section Scripts

variable {p : Project} {f : Flow} {t : String}

theorem Yarn.flowTargets_land {sheets : List Sheet} (hv : p.validate.errors = [])
    (hf : f ∈ p.flows) (hj : f.JumpsKnown p.flows) (hs : f.SubflowsNamed)
    (ht : t ∈ flowTargets sheets (.ofFlows digitGuard p.flows) f) :
    t ∈ p.flows.flatMap (flowTitles (.ofFlows digitGuard p.flows)) := by
  have hname : ∀ name, FlowNames.Names digitGuard p.flows name →
      name ∈ p.flows.flatMap (flowTitles (.ofFlows digitGuard p.flows)) := by
    rintro _ ⟨g, hg, rfl⟩
    exact List.mem_flatMap.mpr ⟨g, hg, List.mem_cons_self⟩
  have hsection : ∀ label, (∃ s ∈ f.linearize.sections, s.label = label) →
      sectionTitle ((FlowNames.ofFlows digitGuard p.flows).nameOf digitGuard f) label ∈
        p.flows.flatMap (flowTitles (.ofFlows digitGuard p.flows)) := by
    rintro _ ⟨s, hs, rfl⟩
    exact List.mem_flatMap.mpr
      ⟨f, hf, List.mem_cons_of_mem _ (List.mem_map.mpr ⟨s, hs, rfl⟩)⟩
  obtain ⟨s, hm, hst⟩ := List.mem_filterMap.mp ht
  cases s with
  | subflow id s =>
    rcases f.subflow_leads digitGuard hv hf hm with ⟨name, hr, hnames⟩ | ⟨-, hn⟩
    · obtain rfl : name = t := by simpa [stepTarget?, hr] using hst
      exact hname _ hnames
    · exact absurd hs hn
  | jump id j target =>
    rcases f.jump_leads digitGuard hj hm with ⟨shortcut, name, hjs, hr, hnames⟩ | ⟨hjs, hlands⟩
    · obtain rfl : name = t := by
        simpa [stepTarget?, jumpContent, Content.target?, hjs, hr] using hst
      exact hname _ hnames
    · by_cases hu : target = "unknown"
      · simp [stepTarget?, jumpContent, Content.target?, hjs, hu] at hst
      · simp only [stepTarget?, jumpContent, Content.target?, hjs, if_neg hu,
          Option.some.injEq] at hst
        exact hst ▸ hsection target (hlands hu)
  | divert label =>
    obtain rfl := Option.some.inj hst
    exact hsection label (f.lands_linearize _ hm)
  | dialogue | choicesStart | choice | choicesEnd | conditionStart | conditionBranch
  | conditionEnd | instruction | scene | exit => simp [stepTarget?] at hst

theorem Ink.flowTargets_land (hv : p.validate.errors = []) (hf : f ∈ p.flows)
    (hj : f.JumpsKnown p.flows) (ht : t ∈ flowTargets p (.ofFlows digitGuard p.flows) f) :
    t = ending ∨ t ∈ p.flows.flatMap (flowAddresses p (.ofFlows digitGuard p.flows)) := by
  have hname : ∀ name, FlowNames.Names digitGuard p.flows name →
      name ∈ p.flows.flatMap (flowAddresses p (.ofFlows digitGuard p.flows)) := by
    rintro _ ⟨g, hg, rfl⟩
    exact List.mem_flatMap.mpr ⟨g, hg, List.mem_cons_self⟩
  have hsection : ∀ label, (∃ s ∈ f.linearize.sections, s.label = label) →
      stitchTarget (flowContext p (.ofFlows digitGuard p.flows) f) label ∈
        p.flows.flatMap (flowAddresses p (.ofFlows digitGuard p.flows)) := by
    rintro _ ⟨s, hs, rfl⟩
    exact List.mem_flatMap.mpr
      ⟨f, hf, List.mem_cons_of_mem _ (List.mem_map.mpr ⟨s, hs, rfl⟩)⟩
  obtain ⟨s, hm, hst⟩ := List.mem_filterMap.mp ht
  cases s with
  | subflow id s =>
    rcases f.subflow_leads digitGuard hv hf hm with ⟨name, hr, hnames⟩ | ⟨hr, -⟩
    · simp only [stepTarget?, subflowContent, flowContext, hr] at hst
      split at hst
      · rename_i hg
        obtain rfl := Option.some.inj (given_eq_some hg)
        exact Or.inr (Option.some.inj hst ▸ hname _ hnames)
      · simp [Content.target?] at hst
    · simp [stepTarget?, subflowContent, flowContext, hr, given, Content.target?] at hst
  | jump id j target =>
    rcases f.jump_leads digitGuard hj hm with ⟨shortcut, name, hjs, hr, hnames⟩ | ⟨hjs, hlands⟩
    · obtain rfl : name = t := by simpa [stepTarget?, jumpTarget, flowContext, hjs, hr] using hst
      exact Or.inr (hname _ hnames)
    · by_cases hu : target = "unknown"
      · simp only [stepTarget?, jumpTarget, hjs, if_pos hu, Option.some.injEq] at hst
        exact Or.inl hst.symm
      · simp only [stepTarget?, jumpTarget, hjs, if_neg hu, Option.some.injEq] at hst
        exact Or.inr (hst ▸ hsection target (hlands hu))
  | divert label =>
    obtain rfl := Option.some.inj hst
    exact Or.inr (hsection label (f.lands_linearize _ hm))
  | exit id =>
    simp only [stepTarget?, exitContent] at hst
    split at hst
    · simp [Content.target?] at hst
    · exact Or.inl (Option.some.inj hst).symm
  | dialogue | choicesStart | choice | choicesEnd | conditionStart | conditionBranch
  | conditionEnd | instruction | scene => simp [stepTarget?] at hst

end Scripts

namespace Project

/-- When the validation of a project finds no error and its jumps name flows that are there, every
transfer of its scripts leads to something that they define. In Yarn the subflows have to name
flows as well. -/
theorem transfers_land (p : Project) (threshold : Nat) (hv : p.validate.errors = [])
    (hj : ∀ f ∈ p.flows, f.JumpsKnown p.flows) :
    ((∀ f ∈ p.flows, f.SubflowsNamed) →
      let nodes := Yarn.fileNodes
        (Yarn.scriptFiles threshold p (.ofFlows Yarn.digitGuard p.flows)).value
      ∀ t ∈ Yarn.targets nodes, t ∈ Yarn.titles nodes) ∧
    (let names := FlowNames.ofFlows Ink.digitGuard p.flows
      let knots := (Ink.knots p names p.flows).value
      (∀ t ∈ Ink.targets knots, t = Ink.ending ∨ t ∈ Ink.addresses knots) ∧
      ∀ f, Ink.startFlow p.flows = some f →
        names.nameOf Ink.digitGuard f ∈ Ink.addresses knots) := by
  refine ⟨?_, ?_, ?_⟩
  · intro hs nodes t ht
    rw [Yarn.targets_scriptFiles] at ht
    obtain ⟨f, hf, ht⟩ := List.mem_flatMap.mp ht
    exact Yarn.titles_scriptFiles threshold p _
      (Yarn.flowTargets_land hv hf (hj f hf) (hs f hf) ht)
  · intro t ht
    rw [Ink.addresses_knots]
    refine (Ink.targets_knots p.flows t ht).elim Or.inl fun ht => ?_
    obtain ⟨f, hf, ht⟩ := List.mem_flatMap.mp ht
    exact Ink.flowTargets_land hv hf (hj f hf) ht
  · intro f hf
    rw [Ink.addresses_knots]
    exact List.mem_flatMap.mpr ⟨f, Ink.mem_of_startFlow hf, List.mem_cons_self⟩

/-- A flow of its entry and one more node. -/
def pair (id shortcut : String) (n : Node) : Flow :=
  ⟨id, some shortcut, shortcut, none, none, false, [],
    [.ofStored (shortcut ++ ".entry") "entry" [] none none, n],
    [⟨none, shortcut ++ ".entry", "output", n.id, none, none⟩]⟩

def ofFlows (flows : List Flow) : Project :=
  ⟨⟨"1", "Project", none, none, []⟩, [], flows, [], [], .empty, []⟩

/-- Two flows, of which the first enters the second as a subflow, and that jumps back. -/
def shuttle : Project :=
  ofFlows [pair "1" "there" (.ofStored "enter" "subflow" [("target_flow_id", .str "2")] none none),
    pair "2" "back" (.ofStored "return" "jump" [("target_flow_shortcut", .str "there")] none none)]

theorem shuttle_transfers_land :
    shuttle.validate.errors = [] ∧ (∀ f ∈ shuttle.flows, f.JumpsKnown shuttle.flows) ∧
      (∀ f ∈ shuttle.flows, f.SubflowsNamed) ∧
      let nodes := Yarn.fileNodes
        (Yarn.scriptFiles 5 shuttle (.ofFlows Yarn.digitGuard shuttle.flows)).value
      Yarn.targets nodes = ["back", "there"] ∧ ∀ t ∈ Yarn.targets nodes, t ∈ Yarn.titles nodes := by
  have hv : shuttle.validate.errors = [] := by decide +kernel
  have hj : ∀ f ∈ shuttle.flows, f.JumpsKnown shuttle.flows := by
    simp [shuttle, ofFlows, pair, Flow.JumpsKnown, Node.ofStored, Body.ofData, Fields.textOf,
      Fields.get?, given]
  have hs : ∀ f ∈ shuttle.flows, f.SubflowsNamed := by
    simp [shuttle, ofFlows, pair, Flow.SubflowsNamed, Node.ofStored, Body.ofData, Fields.textOf,
      Fields.get?, given]
  exact ⟨hv, hj, hs, by decide +kernel, (transfers_land shuttle 5 hv hj).1 hs⟩

/-- A flow that jumps to a flow that is not there, and one with a subflow that names none. -/
def dangling : Project :=
  ofFlows [pair "1" "first"
      (.ofStored "leave" "jump" [("target_flow_shortcut", .str "nowhere")] none none),
    pair "2" "second" (.ofStored "enter" "subflow" [] none none)]

theorem dangling_transfers : dangling.validate.errors = [] ∧
    (let nodes := Yarn.fileNodes
        (Yarn.scriptFiles 5 dangling (.ofFlows Yarn.digitGuard dangling.flows)).value
      ∀ t ∈ ["nowhere", "subflow_enter"], t ∈ Yarn.targets nodes ∧ t ∉ Yarn.titles nodes) ∧
    let knots :=
      (Ink.knots dangling (.ofFlows Ink.digitGuard dangling.flows) dangling.flows).value
    "nowhere" ∈ Ink.targets knots ∧ "nowhere" ∉ Ink.addresses knots := by
  decide +kernel

end Project

end StoryFlow
