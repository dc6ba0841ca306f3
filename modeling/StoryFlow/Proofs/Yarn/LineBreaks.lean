import StoryFlow.Proofs.Script.Escaping
import StoryFlow.Proofs.Script.LineBreaks
import StoryFlow.Proofs.Yarn.Transfers

/-! # Line breaks in Yarn scripts

A line is unbroken when all texts in it are. Escapes and tags add none, so what a step writes is
unbroken exactly when nothing that it shows breaks a line.
-/

namespace StoryFlow.Yarn

open Text

section Lines

theorem unbroken_escape {s : String} : Unbroken (escape s) ↔ Unbroken s :=
  unbroken_escaped unescape_escapeChars s

theorem unbroken_tag (n : Nat) : Unbroken (tag n) := by
  have hp : Unbroken "#line:line_" := by decide
  rw [tag, unbroken_append, and_iff_right hp]
  exact unbroken_fourDigits n

/-- The texts that a line is made of. -/
@[simp] def Content.texts : Content → List String
  | .speech speaker text => text :: speaker.toList
  | .option label guard => label :: guard.toList
  | .statement s => [s]
  | .declaration ref value => [ref, value]
  | .branch guard => guard.expr?.toList
  | .scene place => (place.map Text.singleLine).toList
  | .jump target => [target]
  | .endif | .stop => []

/-- The texts of a line hold no line breaks. -/
@[simp] def Content.OnOneLine (c : Content) : Prop :=
  ∀ t ∈ c.texts, Unbroken t

theorem Line.unbroken_write (n : Nat) (l : Line) :
    Unbroken (l.write n) ↔ l.content.OnOneLine := by
  have ht := unbroken_tag n
  rw [write, unbroken_append, and_iff_right (unbroken_indentation _), Content.OnOneLine]
  cases l.content with
  | speech speaker text =>
    cases speaker <;> simp +decide [Content.write, unbroken_escape, ht, and_comm]
  | option label guard =>
    cases guard <;> simp +decide [Content.write, unbroken_escape, ht]
  | branch guard => cases guard <;> simp +decide [Content.write, Guard.expr?]
  | scene place => cases place <;> simp +decide [Content.write]
  | statement | declaration | jump => simp +decide [Content.write]
  | endif => exact iff_of_true (by decide : Unbroken "<<endif>>") (by simp)
  | stop => exact iff_of_true (by decide : Unbroken "<<stop>>") (by simp)

end Lines

section Steps

variable {cx : Context} {s : Step}

theorem onOneLine_statementLines (depth : Nat) (assignments : List Json) :
    ∀ l ∈ (statementLines depth assignments).value, l.content.OnOneLine :=
  List.forall_mem_map.mpr fun s hs => List.forall_mem_singleton.mpr
    (Assignment.unbroken_statements .yarn assignments s hs)

theorem onOneLine_jumpContent (id : String) {target : String} {j : Jump} (ht : Unbroken target) :
    (jumpContent cx j target).OnOneLine ↔
      ∀ name ∈ (Step.jump id j target).flowNames cx.title (cx.names.resolve digitGuard),
        Unbroken name := by
  unfold jumpContent
  simp only [Step.flowNames]
  cases j.flowShortcut with
  | none =>
    by_cases hu : target = "unknown"
    · simp [hu]
    · simp +decide [hu, ht, sectionTitle]
  | some shortcut =>
    cases hr : cx.names.resolve digitGuard ⟨none, some shortcut⟩ with
    | none => simp [hr, ht]
    | some name => simp [hr]

/-- The lines of a step are unbroken exactly when nothing that it shows breaks a line. -/
theorem onOneLine_stepLines (l : Layout) (hs : s.LabelsUnbroken) :
    (∀ line ∈ (stepLines cx l s).value, line.content.OnOneLine) ↔
      s.OnOneLine cx.sheets cx.title (cx.names.resolve digitGuard) .yarn := by
  cases s with
  | dialogue id d =>
    rw [Step.onOneLine_dialogue]
    by_cases ht : Text.singleLine d.spoken = "" <;> simp [stepLines, pure, ht]
  | choice id r i =>
    rw [Step.onOneLine_choice, stepLines_choice, List.forall_mem_append,
      and_iff_left (onOneLine_statementLines _ _), List.forall_mem_singleton]
    simp
  | conditionBranch id b c i =>
    rw [Step.onOneLine_conditionBranch]
    refine List.forall_mem_singleton.trans ?_
    simp
  | conditionEnd id b =>
    refine iff_of_true ?_ (by simp [Step.onOneLine_iff])
    simp only [stepLines, pure]
    split <;> simp
  | instruction id assignments =>
    exact iff_of_true (onOneLine_statementLines _ _) (by simp [Step.onOneLine_iff])
  | scene id s =>
    refine List.forall_mem_singleton.trans ?_
    cases hp : s.place <;> simp [Step.onOneLine_iff, hp, unbroken_singleLine]
  | subflow id s =>
    have hp : Unbroken "subflow_" := by decide
    refine List.forall_mem_singleton.trans ?_
    cases hr : cx.names.resolve digitGuard s.flowTarget <;> simp [Step.onOneLine_iff, hr, hp]
  | jump id j target =>
    refine List.forall_mem_singleton.trans ((onOneLine_jumpContent id hs).trans ?_)
    simp [Step.onOneLine_iff]
  | divert target =>
    have hu : Unbroken "_" := by decide
    have ht : Unbroken target := hs
    refine List.forall_mem_singleton.trans ?_
    simp [Step.onOneLine_iff, sectionTitle, hu, ht]
  | choicesStart | choicesEnd | conditionStart | exit =>
    exact iff_of_true (List.forall_mem_nil _) (by simp [Step.onOneLine_iff])

theorem onOneLine_lines {steps : List Step} (hs : ∀ s ∈ steps, s.LabelsUnbroken) :
    (∀ line ∈ (lines cx steps).value, line.content.OnOneLine) ↔
      ∀ s ∈ steps, s.OnOneLine cx.sheets cx.title (cx.names.resolve digitGuard) .yarn :=
  forall_mem_writeSteps fun s hm l => onOneLine_stepLines l (hs s hm)

end Steps

section Files

variable {sheets : List Sheet} {names : FlowNames}

/-- Nothing that the steps of a flow show breaks a line. -/
def OnOneLine (sheets : List Sheet) (names : FlowNames) (f : Flow) : Prop :=
  f.OnOneLine sheets (names.nameOf digitGuard f) (names.resolve digitGuard) .yarn

theorem onOneLine_declarations (vars : List Variable) :
    (∀ line ∈ declarations vars, line.content.OnOneLine) ↔ ∀ v ∈ vars, ¬ v.HoldsReturn := by
  rw [declarations, List.forall_mem_map]
  refine forall₂_congr fun v _ => ?_
  have hr : Unbroken (variableRef v) := Dialect.yarn.unbroken_reference v.sheet v.name
  simp [hr, v.unbroken_declaration]

theorem onOneLine_flowLines (f : Flow) :
    (∀ line ∈ flowLines sheets names f, line.content.OnOneLine) ↔ OnOneLine sheets names f := by
  have hsteps := f.labelsUnbroken_linearize
  rw [LinearScript.steps, List.forall_mem_append, List.forall_mem_flatMap] at hsteps
  rw [OnOneLine, Flow.OnOneLine, LinearScript.steps, List.forall_mem_append,
    List.forall_mem_flatMap, flowLines, List.forall_mem_append, List.forall_mem_flatMap,
    onOneLine_lines hsteps.1]
  exact and_congr_right' (forall₂_congr fun s hs => onOneLine_lines (hsteps.2 s hs))

/-- The lines of the script files of a project are unbroken exactly when nothing that its steps
show breaks a line and no carriage return is left in a declaration. -/
theorem onOneLine_scriptFiles (threshold : Nat) (p : Project) (names : FlowNames) :
    (∀ line ∈ bodyLines (fileNodes (scriptFiles threshold p names).value),
        line.content.OnOneLine) ↔
      (∀ f ∈ p.flows, OnOneLine p.sheets names f) ∧
        ∀ v ∈ variablesOf p.sheets, ¬ v.HoldsReturn := by
  rw [bodyLines_scriptFiles, List.forall_mem_append, onOneLine_declarations,
    List.forall_mem_flatMap, and_comm]
  exact and_congr_left' (forall₂_congr fun f _ => onOneLine_flowLines f)

/-- The lines of the script files of a project. -/
def scriptLines (threshold : Nat) (p : Project) : List Line :=
  bodyLines (fileNodes (scriptFiles threshold p (.ofFlows digitGuard p.flows)).value)

end Files

end StoryFlow.Yarn
