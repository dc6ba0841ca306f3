import StoryFlow.Proofs.Graph.Within
import StoryFlow.Proofs.Script.Steps
import StoryFlow.Yarn.Document

/-! # Jumps of Yarn scripts

The jumps among the lines of an export are those of the steps of its flows: one for every subflow
and divert, and one for every jump that leads somewhere. The titles of its nodes are the names of
the flows and those of their sections.
-/

namespace StoryFlow.Yarn

variable {sheets : List Sheet} {names : FlowNames}

def Content.target? : Content → Option String
  | .jump target => some target
  | _ => none

/-- The targets of the jumps among lines. -/
def lineTargets (ls : List Line) : List String :=
  ls.filterMap fun l => l.content.target?

/-- The targets of the jumps of nodes. -/
def targets (nodes : List Node) : List String :=
  nodes.flatMap fun n => lineTargets n.body

def titles (nodes : List Node) : List String :=
  nodes.map Node.title

/-- Where a step jumps to. -/
def stepTarget? (cx : Context) : Step → Option String
  | .subflow id s => some ((cx.names.resolve digitGuard s.flowTarget).getD ("subflow_" ++ id))
  | .jump _ j target => (jumpContent cx j target).target?
  | .divert target => some (sectionTitle cx.title target)
  | _ => none

section Lines

variable {cx : Context}

theorem stepLines_choice (cx : Context) (l : Layout) (id : String) (r : Response) (i : Nat) :
    (stepLines cx l (.choice id r i)).value =
      [⟨l.top, .option r.label (Condition.guard? .yarn r.condition).value⟩] ++
        (statementLines (l.top + 1) r.assignments).value :=
  rfl

theorem lineTargets_declarations (vars : List Variable) :
    lineTargets (declarations vars) = [] :=
  List.filterMap_eq_nil_iff.mpr (List.forall_mem_map.mpr fun _ _ => rfl)

theorem lineTargets_stepLines (l : Layout) (s : Step) :
    lineTargets (stepLines cx l s).value = (stepTarget? cx s).toList := by
  cases s with
  | dialogue id d =>
    simp only [stepLines, pure]
    split <;> rfl
  | choice id r i =>
    refine List.filterMap_eq_nil_iff.mpr (List.forall_mem_cons.mpr ⟨rfl, ?_⟩)
    exact List.forall_mem_map.mpr fun _ _ => rfl
  | conditionEnd id b =>
    simp only [stepLines, pure]
    split <;> rfl
  | instruction id assignments =>
    exact List.filterMap_eq_nil_iff.mpr (List.forall_mem_map.mpr fun _ _ => rfl)
  | jump id j target =>
    simp only [stepLines, pure, stepTarget?, lineTargets, List.filterMap_cons, List.filterMap_nil]
    cases (jumpContent cx j target).target? <;> rfl
  | subflow | divert | choicesStart | choicesEnd | conditionStart | conditionBranch | scene
  | exit => rfl

theorem lineTargets_lines (ss : List Step) :
    lineTargets (lines cx ss).value = ss.filterMap (stepTarget? cx) :=
  filterMap_writeSteps lineTargets_stepLines .start ss

end Lines

section Nodes

/-- The titles of the nodes of a flow. -/
def flowTitles (names : FlowNames) (f : Flow) : List String :=
  names.nameOf digitGuard f ::
    f.linearize.sections.map fun s => sectionTitle (names.nameOf digitGuard f) s.label

/-- Where the steps of a flow jump to. -/
def flowTargets (sheets : List Sheet) (names : FlowNames) (f : Flow) : List String :=
  f.linearize.steps.filterMap (stepTarget? ⟨sheets, names, names.nameOf digitGuard f⟩)

theorem sectionNodes_value (cx : Context) (ss : List Section) :
    (sectionNodes cx ss).value =
      ss.map fun s => ⟨sectionTitle cx.title s.label, (lines cx s.steps).value⟩ := by
  induction ss with
  | nil => rfl
  | cons s ss ih => exact congrArg (_ :: ·) ih

/-- The first node of a flow is its own, and behind it stand those of its sections. -/
theorem flowNodes_value (sheets : List Sheet) (names : FlowNames) (preamble : List Line)
    (f : Flow) :
    let cx : Context := ⟨sheets, names, names.nameOf digitGuard f⟩
    (flowNodes sheets names preamble f).value =
      ⟨cx.title, preamble ++ (lines cx f.linearize.main).value⟩ ::
        f.linearize.sections.map fun s =>
          ⟨sectionTitle cx.title s.label, (lines cx s.steps).value⟩ :=
  congrArg (_ :: ·) (sectionNodes_value _ _)

theorem titles_flowNodes (sheets : List Sheet) (preamble : List Line) (f : Flow) :
    titles (flowNodes sheets names preamble f).value = flowTitles names f := by
  rw [flowNodes_value, titles, List.map_cons, List.map_map]
  rfl

theorem titles_allNodes (sheets : List Sheet) (preamble : List Line) (fs : List Flow) :
    titles ((allNodes sheets names preamble fs).value.flatMap Prod.snd) =
      fs.flatMap (flowTitles names) := by
  induction fs generalizing preamble with
  | nil => rfl
  | cons f fs ih =>
    rw [List.flatMap_cons, ← ih [], ← titles_flowNodes sheets preamble f, titles,
      titles, titles, ← List.map_append]
    rfl

end Nodes

/-- The nodes of the script files of a project. -/
def fileNodes (files : List File) : List Node :=
  files.flatMap File.nodes

theorem fileNodes_manyFiles (p : Project) (names : FlowNames) :
    fileNodes (manyFiles p names).value = declarationNodes (variablesOf p.sheets) ++
      (allNodes p.sheets names [] p.flows).value.flatMap Prod.snd := by
  simp [manyFiles, fileNodes, bind, pure, List.flatMap_map]

theorem fileNodes_singleFile (p : Project) (names : FlowNames) :
    fileNodes (singleFile p names).value =
      (allNodes p.sheets names (declarations (variablesOf p.sheets)) p.flows).value.flatMap
        Prod.snd ++ if p.flows.isEmpty then declarationNodes (variablesOf p.sheets) else [] := by
  simp [singleFile, fileNodes, bind, pure]

/-- The nodes of the flows stand in a row among the nodes of an export. -/
theorem fileNodes_scriptFiles (threshold : Nat) (p : Project) (names : FlowNames) :
    ∃ preamble before after, fileNodes (scriptFiles threshold p names).value =
      before ++ ((allNodes p.sheets names preamble p.flows).value.flatMap Prod.snd ++ after) := by
  unfold scriptFiles
  split
  · refine ⟨[], declarationNodes (variablesOf p.sheets), [], ?_⟩
    rw [fileNodes_manyFiles, List.append_nil]
  · exact ⟨declarations (variablesOf p.sheets), [], _, fileNodes_singleFile p names⟩

section Bodies

/-- The lines of nodes. -/
def bodyLines (nodes : List Node) : List Line :=
  nodes.flatMap Node.body

/-- The lines of a flow, with those of its sections behind. -/
def flowLines (sheets : List Sheet) (names : FlowNames) (f : Flow) : List Line :=
  let cx : Context := ⟨sheets, names, names.nameOf digitGuard f⟩
  (lines cx f.linearize.main).value ++
    f.linearize.sections.flatMap fun s => (lines cx s.steps).value

theorem bodyLines_append (ns ms : List Node) :
    bodyLines (ns ++ ms) = bodyLines ns ++ bodyLines ms :=
  List.flatMap_append

theorem bodyLines_declarationNodes (vars : List Variable) :
    bodyLines (declarationNodes vars) = declarations vars := by
  unfold declarationNodes
  cases vars <;> simp [bodyLines, declarations]

theorem bodyLines_flowNodes (preamble : List Line) (f : Flow) :
    bodyLines (flowNodes sheets names preamble f).value =
      preamble ++ flowLines sheets names f := by
  rw [flowNodes_value, bodyLines, List.flatMap_cons, List.flatMap_map, flowLines,
    ← List.append_assoc]

theorem bodyLines_allNodes (preamble : List Line) (fs : List Flow) :
    bodyLines ((allNodes sheets names preamble fs).value.flatMap Prod.snd) =
      (if fs.isEmpty then [] else preamble) ++ fs.flatMap (flowLines sheets names) := by
  induction fs generalizing preamble with
  | nil => rfl
  | cons f fs ih =>
    have hnodes : (allNodes sheets names preamble (f :: fs)).value.flatMap Prod.snd =
        (flowNodes sheets names preamble f).value ++
          (allNodes sheets names [] fs).value.flatMap Prod.snd := rfl
    rw [hnodes, bodyLines_append, bodyLines_flowNodes, ih, ite_self, List.nil_append,
      List.append_assoc]
    rfl

/-- Wherever they stand, the lines of an export are its declarations and then those of its
flows. -/
theorem bodyLines_scriptFiles (threshold : Nat) (p : Project) (names : FlowNames) :
    bodyLines (fileNodes (scriptFiles threshold p names).value) =
      declarations (variablesOf p.sheets) ++ p.flows.flatMap (flowLines p.sheets names) := by
  unfold scriptFiles
  split
  · rw [fileNodes_manyFiles, bodyLines_append, bodyLines_declarationNodes, bodyLines_allNodes,
      ite_self, List.nil_append]
  · rw [fileNodes_singleFile, bodyLines_append, bodyLines_allNodes]
    cases p.flows with
    | nil => simp [bodyLines_declarationNodes]
    | cons f fs => simp [bodyLines]

theorem lineTargets_flowLines (f : Flow) :
    lineTargets (flowLines sheets names f) = flowTargets sheets names f := by
  rw [lineTargets, flowLines, List.filterMap_append, List.filterMap_flatMap, flowTargets,
    LinearScript.steps, List.filterMap_append, List.filterMap_flatMap]
  exact congrArg₂ (· ++ ·) (lineTargets_lines _)
    (List.flatMap_congr fun s _ => lineTargets_lines s.steps)

theorem targets_scriptFiles (threshold : Nat) (p : Project) (names : FlowNames) :
    targets (fileNodes (scriptFiles threshold p names).value) =
      p.flows.flatMap (flowTargets p.sheets names) := by
  have htargets (nodes : List Node) : targets nodes = lineTargets (bodyLines nodes) :=
    List.filterMap_flatMap.symm
  rw [htargets, bodyLines_scriptFiles, lineTargets, List.filterMap_append,
    List.filterMap_flatMap]
  exact congrArg₂ (· ++ ·) (lineTargets_declarations _)
    (List.flatMap_congr fun f _ => lineTargets_flowLines f)

end Bodies

section Written

variable {s : Step} {t : Section} {p : Project} {f : Flow} {fs : List Flow}

theorem flowNodes_subset_allNodes (sheets : List Sheet) (names : FlowNames)
    (preamble : List Line) (hf : f ∈ fs) : ∃ front, (flowNodes sheets names front f).value ⊆
      (allNodes sheets names preamble fs).value.flatMap Prod.snd := by
  induction fs generalizing preamble with
  | nil => simp at hf
  | cons g fs ih =>
    change ∃ front, _ ⊆ (flowNodes sheets names preamble g).value ++
      (allNodes sheets names [] fs).value.flatMap Prod.snd
    rcases List.mem_cons.mp hf with rfl | hf
    · exact ⟨preamble, List.subset_append_left _ _⟩
    · obtain ⟨front, hfront⟩ := ih [] hf
      exact ⟨front, List.subset_append_of_subset_right _ hfront⟩

/-- The nodes of a flow are among those of the script files. -/
theorem flowNodes_subset_scriptFiles (names : FlowNames) (threshold : Nat) (hf : f ∈ p.flows) :
    ∃ front, (flowNodes p.sheets names front f).value ⊆
      fileNodes (scriptFiles threshold p names).value := by
  obtain ⟨preamble, before, after, he⟩ := fileNodes_scriptFiles threshold p names
  obtain ⟨front, hfront⟩ := flowNodes_subset_allNodes p.sheets names preamble hf
  rw [he]
  exact ⟨front, List.subset_append_of_subset_right _ (List.subset_append_of_subset_left _ hfront)⟩

/-- What a flow is written with. -/
def flowContext (p : Project) (names : FlowNames) (f : Flow) : Context :=
  ⟨p.sheets, names, names.nameOf digitGuard f⟩

/-- The node of a section stands in the script files. -/
theorem section_written (names : FlowNames) (threshold : Nat) (hf : f ∈ p.flows)
    (ht : t ∈ f.linearize.sections) :
    ⟨sectionTitle (names.nameOf digitGuard f) t.label,
        (lines (flowContext p names f) t.steps).value⟩ ∈
      fileNodes (scriptFiles threshold p names).value := by
  obtain ⟨front, hnodes⟩ := flowNodes_subset_scriptFiles names threshold hf
  rw [flowNodes_value] at hnodes
  exact hnodes (List.mem_cons_of_mem _ (List.mem_map.mpr ⟨t, ht, rfl⟩))

/-- The lines of a step stand in a node of the script files. -/
theorem step_written (names : FlowNames) (threshold : Nat) (hf : f ∈ p.flows)
    (hs : s ∈ f.linearize.steps) :
    ∃ l, ∃ node ∈ fileNodes (scriptFiles threshold p names).value,
      (stepLines (flowContext p names f) l s).value ⊆ node.body := by
  let write := stepLines (flowContext p names f)
  rcases List.mem_append.mp hs with hs | hs
  · obtain ⟨front, hnodes⟩ := flowNodes_subset_scriptFiles names threshold hf
    obtain ⟨l, hl⟩ := exists_subset_writeSteps Layout.next write .start hs
    exact ⟨l, _, hnodes List.mem_cons_self, List.subset_append_of_subset_right _ hl⟩
  · obtain ⟨t, ht, hs⟩ := List.mem_flatMap.mp hs
    obtain ⟨l, hl⟩ := exists_subset_writeSteps Layout.next write .start hs
    exact ⟨l, _, section_written names threshold hf ht, hl⟩

end Written

theorem titles_scriptFiles (threshold : Nat) (p : Project) (names : FlowNames) :
    p.flows.flatMap (flowTitles names) ⊆
      titles (fileNodes (scriptFiles threshold p names).value) := by
  obtain ⟨preamble, before, after, he⟩ := fileNodes_scriptFiles threshold p names
  rw [← titles_allNodes p.sheets preamble, he, titles, titles, List.map_append,
    List.map_append]
  exact List.subset_append_of_subset_right _ (List.subset_append_left _ _)

end StoryFlow.Yarn
