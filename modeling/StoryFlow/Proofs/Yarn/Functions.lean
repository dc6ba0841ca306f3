import StoryFlow.Proofs.Expr.Guards
import StoryFlow.Proofs.Script.Metadata
import StoryFlow.Proofs.Script.Modes

/-! # Functions of a Yarn export

What an export asks its host for are the functions of the rules that its guards are made of. Every
rule that needs a function has its text in the guard of an option or a branch, so the metadata lists
exactly the functions that the scripts call.
-/

namespace StoryFlow

/-- The functions that the guard of a step needs. -/
def Step.functions (d : Dialect) (s : Step) : List String :=
  s.rules.filterMap (Rule.function? d)

namespace Yarn

open Condition

variable {cx : Context} {sheets : List Sheet} {names : FlowNames} {s : Step} {r : Rule}
  {name : String}

section Notes

theorem functions_statementLines (depth : Nat) (assignments : List Json) :
    (statementLines depth assignments).notes.functions = [] := by
  simp [statementLines, Assignment.functions_statements]

theorem functions_stepLines (cx : Context) (l : Layout) (s : Step) :
    (stepLines cx l s).notes.functions = s.functions .yarn := by
  cases s with
  | choice id r i =>
    simp [stepLines, Step.functions, Step.rules, functions_guard?, functions_statementLines]
  | conditionBranch id b c i =>
    simp [stepLines, Step.functions, Step.rules, Branching.functions_guard]
  | instruction id assignments => exact functions_statementLines l.depth assignments
  | dialogue | conditionEnd | scene | subflow | jump | divert => rfl
  | choicesStart | choicesEnd | conditionStart | exit => rfl

theorem functions_writeSteps (cx : Context) (l : Layout) (ss : List Step) :
    (writeSteps Layout.next (stepLines cx) l ss).notes.functions =
      ss.flatMap (Step.functions .yarn) := by
  induction ss generalizing l with
  | nil => rfl
  | cons s ss ih => simp [writeSteps, functions_stepLines, ih]

theorem functions_lines (cx : Context) (ss : List Step) :
    (lines cx ss).notes.functions = ss.flatMap (Step.functions .yarn) :=
  functions_writeSteps cx .start ss

theorem functions_sectionNodes (cx : Context) (ss : List Section) :
    (sectionNodes cx ss).notes.functions =
      (ss.flatMap Section.steps).flatMap (Step.functions .yarn) := by
  induction ss with
  | nil => rfl
  | cons t ss ih => simp [sectionNodes, functions_lines, ih]

theorem functions_flowNodes (preamble : List Line) (f : Flow) :
    (flowNodes sheets names preamble f).notes.functions =
      f.linearize.steps.flatMap (Step.functions .yarn) := by
  simp [flowNodes, functions_lines, functions_sectionNodes, LinearScript.steps]

theorem functions_allNodes (preamble : List Line) (fs : List Flow) :
    (allNodes sheets names preamble fs).notes.functions =
      fs.flatMap fun f => f.linearize.steps.flatMap (Step.functions .yarn) := by
  induction fs generalizing preamble with
  | nil => rfl
  | cons f fs ih => simp [allNodes, functions_flowNodes, ih]

/-- The functions that the scripts ask for are those of all steps of all flows. -/
theorem functions_scriptFiles (threshold : Nat) (p : Project) (names : FlowNames) :
    (scriptFiles threshold p names).notes.functions =
      p.flows.flatMap fun f => f.linearize.steps.flatMap (Step.functions .yarn) := by
  unfold scriptFiles
  split
  · simp [manyFiles, functions_allNodes]
  · simp [singleFile, functions_allNodes]

end Notes

section Guards

/-- The test in the guard of a line. -/
def Content.test? : Content → Option String
  | .option _ guard => guard
  | .branch guard => guard.expr?
  | .speech .. | .statement _ | .declaration .. | .endif | .scene _ | .jump _ | .stop => none

/-- A line that is written for a step has a test, which is spelled with those rules of the step that
are kept. The given rule is one of them, and its text stands in the test. -/
structure Calls (cx : Context) (s : Step) (r : Rule) (line : Line) : Prop where
  of_step : ∃ l, line ∈ (stepLines cx l s).value
  rule : r ∈ s.rules
  spelled : ∃ test ts, line.content.test? = some test ∧ SpellsTest .yarn ts test ∧
    Token.rules ts = s.rules.filter (Rule.isKept .yarn)
  written : ∃ test text, line.content.test? = some test ∧ (r.compile .yarn).value = some text ∧
    text.toList <:+: test.toList

theorem Calls.of_spelled {l : Layout} {line : Line} {test : String} {ts : List Token}
    (hline : line ∈ (stepLines cx l s).value) (hr : r ∈ s.rules) (hk : r.isKept .yarn)
    (htest : line.content.test? = some test) (hspell : SpellsTest .yarn ts test)
    (hrules : Token.rules ts = s.rules.filter (Rule.isKept .yarn)) : Calls cx s r line where
  of_step := ⟨l, hline⟩
  rule := hr
  spelled := ⟨test, ts, htest, hspell, hrules⟩
  written := by
    obtain ⟨text, htext⟩ := Option.isSome_iff_exists.mp hk
    have hinfix := hspell.rule_infix (r := r) (hrules ▸ List.mem_filter.mpr ⟨hr, hk⟩)
    rw [htext] at hinfix
    exact ⟨test, text, htest, htext, hinfix⟩

/-- A rule that needs a function has its text in a line of its step. -/
theorem exists_calls (cx : Context) (hr : r ∈ s.rules) (hn : r.Needs name) (l : Layout) :
    ∃ line ∈ (stepLines cx l s).value, Calls cx s r line := by
  have hk : r.isKept .yarn := Rule.isKept_of_function? (Rule.function?_eq_some_iff.mpr hn)
  cases s with
  | choice id response i =>
    obtain ⟨ts, hguard, hrules⟩ := spell_guard? hr hk
    have hline : ⟨l.top, .option response.label (some (Token.spell .yarn ts))⟩ ∈
        (stepLines cx l (.choice id response i)).value := by
      rw [← hguard]
      exact List.mem_cons_self
    exact ⟨_, hline, .of_spelled hline hr hk rfl .plain hrules⟩
  | conditionBranch id b c i =>
    obtain ⟨test, ts, hguard, hspell, hrules⟩ := b.spells_guard (d := .yarn) hr hk
    have hline : ⟨l.top, .branch (b.guard .yarn c i).value⟩ ∈
        (stepLines cx l (.conditionBranch id b c i)).value := List.mem_singleton_self _
    exact ⟨_, hline, .of_spelled hline hr hk hguard hspell hrules⟩
  | dialogue | choicesStart | choicesEnd | conditionStart | conditionEnd | instruction | scene
  | subflow | jump | divert | exit => simp [Step.rules] at hr

/-- A function is asked for exactly when a line of the scripts calls it. -/
theorem mem_functions_scriptFiles_iff (threshold : Nat) (p : Project) (names : FlowNames) :
    name ∈ (scriptFiles threshold p names).notes.functions ↔
      ∃ f ∈ p.flows, ∃ s ∈ f.linearize.steps, ∃ r, r.Needs name ∧
        ∃ node ∈ fileNodes (scriptFiles threshold p names).value,
          ∃ line ∈ node.body, Calls (flowContext p names f) s r line := by
  rw [functions_scriptFiles]
  constructor
  · intro hm
    obtain ⟨f, hf, hm⟩ := List.mem_flatMap.mp hm
    obtain ⟨s, hs, hm⟩ := List.mem_flatMap.mp hm
    obtain ⟨r, hr, hfunction⟩ := List.mem_filterMap.mp hm
    have hn := Rule.function?_eq_some_iff.mp hfunction
    obtain ⟨l, node, hnode, hlines⟩ := step_written names threshold hf hs
    obtain ⟨line, hline, hcalls⟩ := exists_calls (flowContext p names f) hr hn l
    exact ⟨f, hf, s, hs, r, hn, node, hnode, line, hlines hline, hcalls⟩
  · rintro ⟨f, hf, s, hs, r, hn, _, _, _, _, hcalls⟩
    refine List.mem_flatMap.mpr ⟨f, hf, List.mem_flatMap.mpr ⟨s, hs, ?_⟩⟩
    exact List.mem_filterMap.mpr ⟨r, hcalls.rule, Rule.function?_eq_some_iff.mpr hn⟩

end Guards

/-- The metadata of an export lists, once each and in order, the functions that the guards of its
scripts call, and has no such list when they call none. -/
theorem required_functions_called (settings : Settings) (o : Options) (p : Project) :
    let names := FlowNames.ofFlows digitGuard p.flows
    let files := scriptFiles settings.multiFileThreshold p names
    ∃ functions : List String, functions.Nodup ∧
      (functions.Pairwise fun a b => Text.unitsLE a b) ∧
      (∃ text fs, (output settings o p).value =
          .files (writeFiles 0 files.value ++ [⟨"metadata.json", text⟩]) ∧
        Json.read? text = some (.obj fs) ∧
        Fields.get? fs "required_functions" =
          if functions = [] then none else some (.arr (functions.map .str))) ∧
      ∀ name, name ∈ functions ↔
        ∃ f ∈ p.flows, ∃ s ∈ f.linearize.steps, ∃ r, r.Needs name ∧
          ∃ node ∈ fileNodes files.value, ∃ line ∈ node.body,
            Calls (flowContext p names f) s r line := by
  intro names files
  obtain ⟨fs, hread, hget⟩ := read?_scriptMetadata metadataStyle (by decide) (by decide) p names
    files.notes.warnings o.prettyPrint
  refine ⟨requiredFunctions files.notes.warnings, nodup_requiredFunctions _,
    sorted_requiredFunctions _, ⟨_, fs, rfl, hread, hget⟩, fun name => ?_⟩
  rw [mem_requiredFunctions]
  exact mem_functions_scriptFiles_iff settings.multiFileThreshold p names

end Yarn

end StoryFlow
