import StoryFlow.Ink.Document
import StoryFlow.Proofs.Graph.Within
import StoryFlow.Proofs.Script.Steps

/-! # Diverts and tunnels of Ink scripts

The diverts and tunnels among the lines of an export are those of the steps of its flows, and the
end of the story for a knot without lines. What can be diverted to are the knots and their
stitches.
-/

namespace StoryFlow.Ink

variable {p : Project} {names : FlowNames}

def Content.target? : Content → Option String
  | .tunnel target | .divert target => some target
  | _ => none

/-- The targets of the diverts and tunnels among lines. -/
def lineTargets (ls : List Line) : List String :=
  ls.filterMap fun l => l.content.target?

def Knot.targets (k : Knot) : List String :=
  lineTargets k.body ++ k.stitches.flatMap fun s => lineTargets s.body

/-- The addresses of a knot and of its stitches. -/
def Knot.addresses (k : Knot) : List String :=
  k.name :: k.stitches.map fun s => k.name ++ "." ++ s.name

/-- Where a step diverts to. -/
def stepTarget? (cx : Context) : Step → Option String
  | .subflow id s => (subflowContent cx id s).target?
  | .jump _ j target => some (jumpTarget cx j target)
  | .divert target => some (stitchTarget cx target)
  | .exit _ => (exitContent cx).target?
  | _ => none

section Lines

variable {cx : Context}

theorem stepLines_choice (cx : Context) (l : Layout) (id : String) (r : Response) (i : Nat) :
    (stepLines cx l (.choice id r i)).value =
      [⟨l.top.depth, .choice l.now.weave r.label (Condition.guard? .ink r.condition).value⟩] ++
        (statementLines (l.top.depth + 1) r.assignments).value :=
  rfl

theorem lineTargets_singleton (l : Line) : lineTargets [l] = l.content.target?.toList := by
  rw [lineTargets, List.filterMap_cons, List.filterMap_nil]
  cases l.content.target? <;> rfl

theorem lineTargets_stepLines (l : Layout) (s : Step) :
    lineTargets (stepLines cx l s).value = (stepTarget? cx s).toList := by
  cases s with
  | dialogue id d =>
    simp only [stepLines, pure]
    split <;> rfl
  | choice id r i =>
    refine List.filterMap_eq_nil_iff.mpr (List.forall_mem_cons.mpr ⟨rfl, ?_⟩)
    exact List.forall_mem_map.mpr fun _ _ => rfl
  | conditionStart id b | conditionEnd id b =>
    simp only [stepLines, pure]
    split <;> rfl
  | instruction id assignments =>
    exact List.filterMap_eq_nil_iff.mpr (List.forall_mem_map.mpr fun _ _ => rfl)
  | subflow | exit => exact lineTargets_singleton _
  | jump | divert | choicesStart | choicesEnd | conditionBranch | scene => rfl

theorem lineTargets_lines (ss : List Step) :
    lineTargets (lines cx ss).value = ss.filterMap (stepTarget? cx) :=
  filterMap_writeSteps lineTargets_stepLines .start ss

end Lines

section Knots

/-- What the lines of a flow depend on. -/
def flowContext (p : Project) (names : FlowNames) (f : Flow) : Context :=
  ⟨p.sheets, names, tunnels names p.flows, names.nameOf digitGuard f⟩

/-- Where the steps of a flow divert to. -/
def flowTargets (p : Project) (names : FlowNames) (f : Flow) : List String :=
  f.linearize.steps.filterMap (stepTarget? (flowContext p names f))

/-- The addresses of the knot of a flow and of its stitches. -/
def flowAddresses (p : Project) (names : FlowNames) (f : Flow) : List String :=
  names.nameOf digitGuard f ::
    f.linearize.sections.map fun s => stitchTarget (flowContext p names f) s.label

theorem stitches_value (cx : Context) (ss : List Section) :
    (stitches cx ss).value = ss.map fun s => ⟨stitchName s.label, (lines cx s.steps).value⟩ := by
  induction ss with
  | nil => rfl
  | cons s ss ih => exact congrArg (_ :: ·) ih

/-- The stitches of the knot of a flow are its sections. -/
theorem stitches_knot (p : Project) (names : FlowNames) (f : Flow) :
    (knot p names f).value.stitches = f.linearize.sections.map fun s =>
      ⟨stitchName s.label, (lines (flowContext p names f) s.steps).value⟩ :=
  stitches_value _ _

theorem addresses_knot (f : Flow) :
    (knot p names f).value.addresses = flowAddresses p names f := by
  rw [Knot.addresses, stitches_knot, List.map_map]
  rfl

theorem targets_knot (f : Flow) : ∀ t ∈ (knot p names f).value.targets,
    t = ending ∨ t ∈ flowTargets p names f := by
  intro t ht
  rw [Knot.targets, stitches_knot, List.flatMap_map, List.mem_append] at ht
  simp only [lineTargets_lines] at ht
  rw [flowTargets, LinearScript.steps, List.filterMap_append, List.filterMap_flatMap,
    List.mem_append, ← lineTargets_lines]
  rcases ht with ht | ht
  · simp only [knot, bind, pure] at ht
    split at ht
    · exact Or.inl (List.mem_singleton.mp ht)
    · exact Or.inr (Or.inl ht)
  · exact Or.inr (Or.inr ht)

/-- The lines of the knot of a flow, its stitches included. -/
def Knot.allLines (k : Knot) : List Line :=
  k.body ++ k.stitches.flatMap Stitch.body

/-- The lines of a step stand in the knot of its flow or in a stitch of it. -/
theorem stepLines_subset_knot (p : Project) (names : FlowNames) {f : Flow} {s : Step}
    (hs : s ∈ f.linearize.steps) :
    ∃ l, (stepLines (flowContext p names f) l s).value ⊆ (knot p names f).value.allLines := by
  let write := stepLines (flowContext p names f)
  rcases List.mem_append.mp hs with hs | hs
  · obtain ⟨l, hl⟩ := exists_subset_writeSteps Layout.next write .start hs
    refine ⟨l, List.subset_append_of_subset_left _ ?_⟩
    simp only [knot, bind, pure]
    split
    · rename_i he
      have hnil := List.isEmpty_iff.mp he
      exact fun a ha => absurd (hnil ▸ hl ha) List.not_mem_nil
    · exact hl
  · obtain ⟨t, ht, hs⟩ := List.mem_flatMap.mp hs
    obtain ⟨l, hl⟩ := exists_subset_writeSteps Layout.next write .start hs
    refine ⟨l, List.subset_append_of_subset_right _ fun a ha => ?_⟩
    rw [stitches_knot, List.flatMap_map]
    exact List.mem_flatMap.mpr ⟨t, ht, hl ha⟩

theorem knots_value (fs : List Flow) :
    (knots p names fs).value = fs.map fun f => (knot p names f).value := by
  induction fs with
  | nil => rfl
  | cons f fs ih => exact congrArg ((knot p names f).value :: ·) ih

end Knots

/-- The targets of the diverts and tunnels of knots. -/
def targets (ks : List Knot) : List String :=
  ks.flatMap Knot.targets

/-- What can be diverted to. -/
def addresses (ks : List Knot) : List String :=
  ks.flatMap Knot.addresses

theorem targets_knots (fs : List Flow) : ∀ t ∈ targets (knots p names fs).value,
    t = ending ∨ t ∈ fs.flatMap (flowTargets p names) := by
  intro t ht
  rw [targets, knots_value] at ht
  obtain ⟨k, hk, ht⟩ := List.mem_flatMap.mp ht
  obtain ⟨f, hf, rfl⟩ := List.mem_map.mp hk
  exact (targets_knot f t ht).imp_right fun ht => List.mem_flatMap.mpr ⟨f, hf, ht⟩

theorem addresses_knots (fs : List Flow) :
    addresses (knots p names fs).value = fs.flatMap (flowAddresses p names) := by
  rw [addresses, knots_value, List.flatMap_map]
  exact congrArg (fs.flatMap ·) (funext addresses_knot)

/-- The story starts at one of the flows. -/
theorem mem_of_startFlow {fs : List Flow} {f : Flow} (h : startFlow fs = some f) : f ∈ fs := by
  rw [startFlow, Option.orElse_eq_orElse, Option.orElse_eq_or, Option.or_eq_some_iff] at h
  rcases h with h | ⟨_, h⟩
  · exact List.mem_of_find?_eq_some h
  · exact List.mem_of_head? h

end StoryFlow.Ink
