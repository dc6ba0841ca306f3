import StoryFlow.Proofs.Ink.Transfers
import StoryFlow.Proofs.Script.Escaping
import StoryFlow.Proofs.Script.LineBreaks

/-! # Line breaks in Ink scripts

A line is unbroken when all texts in it are. Escapes add none, so what a step writes is unbroken
exactly when nothing that it shows breaks a line.
-/

namespace StoryFlow.Ink

open Text

section Lines

variable {s : String}

theorem unbroken_escape : Unbroken (escape s) ↔ Unbroken s :=
  unbroken_escaped unescape_escapeChars s

theorem unbroken_tagText : Unbroken (tagText s) ↔ ¬ LoneReturn s.toList := by
  have hmark : ¬ EndsLine '#' := by decide
  rw [← unbroken_singleLine, tagText, unbroken_onChars]
  constructor
  · intro h c hc
    by_cases hm : c = '#'
    · exact hm ▸ hmark
    · exact h c (List.mem_filter.mpr ⟨hc, by simpa using hm⟩)
  · exact fun h c hc => h c (List.mem_filter.mp hc).1

theorem unbroken_stars (weave : Nat) : Unbroken (stars weave) := by
  rw [stars, Unbroken, String.toList_ofList]
  exact not_endsLine_replicate (by decide)

/-- The texts that a line is made of. -/
@[simp] def Content.texts : Content → List String
  | .speech speaker text => text :: speaker.toList
  | .choice _ label guard => label :: guard.toList
  | .statement s => [s]
  | .branch guard => guard.expr?.toList
  | .scene place => (place.map tagText).toList
  | .tunnel t | .missingFlow t | .divert t => [t]
  | .opening | .closing | .comeBack => []

/-- The texts of a line hold no line breaks. -/
@[simp] def Content.OnOneLine (c : Content) : Prop :=
  ∀ t ∈ c.texts, Unbroken t

theorem Line.unbroken_write (l : Line) : Unbroken l.write ↔ l.content.OnOneLine := by
  rw [write, unbroken_append, and_iff_right (unbroken_indentation _), Content.OnOneLine]
  cases l.content with
  | speech speaker text =>
    cases speaker <;> simp +decide [Content.write, unbroken_escape, and_comm]
  | choice weave label guard =>
    have hs := unbroken_stars weave
    cases guard <;> simp +decide [Content.write, unbroken_escape, hs, and_comm]
  | branch guard => cases guard <;> simp +decide [Content.write, Guard.expr?]
  | scene place => cases place <;> simp +decide [Content.write]
  | statement | tunnel | missingFlow | divert => simp +decide [Content.write]
  | opening | closing | comeBack => simp +decide

end Lines

section Steps

variable {cx : Context} {s : Step}

theorem onOneLine_statementLines (depth : Nat) (assignments : List Json) :
    ∀ l ∈ (statementLines depth assignments).value, l.content.OnOneLine :=
  List.forall_mem_map.mpr fun s hs => List.forall_mem_singleton.mpr
    (Assignment.unbroken_statements .ink assignments s hs)

/-- The flow that a target leads to, if its name is not empty. -/
def leadsTo (names : FlowNames) (t : FlowTarget) : Option String :=
  given (names.resolve digitGuard t)

theorem unbroken_stitchTarget {label : String} (hl : Unbroken label) :
    Unbroken (stitchTarget cx label) ↔ Unbroken cx.knot := by
  have hp : Unbroken "." := by decide
  have hs : Unbroken (stitchName label) := (unbroken_guardDigit (by decide)).mpr hl
  rw [stitchTarget, unbroken_append, unbroken_append, and_iff_left hs, and_iff_left hp]

theorem unbroken_jumpTarget (id : String) {target : String} {j : Jump} (ht : Unbroken target) :
    Unbroken (jumpTarget cx j target) ↔
      ∀ name ∈ (Step.jump id j target).flowNames cx.knot (leadsTo cx.names), Unbroken name := by
  unfold jumpTarget leadsTo
  simp only [Step.flowNames]
  cases j.flowShortcut with
  | none =>
    by_cases hu : target = "unknown"
    · simpa [hu] using (by decide : Unbroken ending)
    · simp [hu, unbroken_stitchTarget ht]
  | some shortcut =>
    cases hr : cx.names.resolve digitGuard ⟨none, some shortcut⟩ with
    | none => simp [hr, ht, given]
    | some name =>
      by_cases hn : name = ""
      · simpa [hr, hn, given] using (by decide : Unbroken "")
      · simp [hr, hn, given]

/-- The lines of a step are unbroken exactly when nothing that it shows breaks a line. -/
theorem onOneLine_stepLines (l : Layout) (hs : s.LabelsUnbroken) :
    (∀ line ∈ (stepLines cx l s).value, line.content.OnOneLine) ↔
      s.OnOneLine cx.sheets cx.knot (leadsTo cx.names) .ink := by
  cases s with
  | dialogue id d =>
    rw [Step.onOneLine_dialogue]
    by_cases ht : Text.singleLine d.spoken = "" <;> simp [stepLines, pure, ht]
  | choice id r i =>
    rw [Step.onOneLine_choice, stepLines_choice, List.forall_mem_append,
      and_iff_left (onOneLine_statementLines _ _), List.forall_mem_singleton]
    simp
  | conditionBranch id b c i =>
    rw [Step.onOneLine_conditionBranch]
    refine List.forall_mem_singleton.trans ?_
    simp
  | conditionStart id b | conditionEnd id b =>
    refine iff_of_true ?_ (by simp [Step.onOneLine_iff])
    simp only [stepLines, pure]
    split <;> simp
  | instruction id assignments =>
    exact iff_of_true (onOneLine_statementLines _ _) (by simp [Step.onOneLine_iff])
  | scene id s =>
    refine List.forall_mem_singleton.trans ?_
    cases hp : s.place <;> simp [Step.onOneLine_iff, hp, unbroken_tagText]
  | subflow id s =>
    refine List.forall_mem_singleton.trans ?_
    cases hr : given (cx.names.resolve digitGuard s.flowTarget) <;>
      simp [Step.onOneLine_iff, subflowContent, hr, leadsTo]
  | jump id j target =>
    refine List.forall_mem_singleton.trans (List.forall_mem_singleton.trans ?_)
    rw [unbroken_jumpTarget id hs]
    simp [Step.onOneLine_iff]
  | divert target =>
    refine List.forall_mem_singleton.trans (List.forall_mem_singleton.trans ?_)
    rw [unbroken_stitchTarget hs]
    simp [Step.onOneLine_iff]
  | exit id =>
    refine iff_of_true (List.forall_mem_singleton.mpr ?_) (by simp [Step.onOneLine_iff])
    rw [exitContent]
    split
    · simp
    · simpa using (by decide : Unbroken ending)
  | choicesStart | choicesEnd =>
    exact iff_of_true (List.forall_mem_nil _) (by simp [Step.onOneLine_iff])

theorem onOneLine_lines {steps : List Step} (hs : ∀ s ∈ steps, s.LabelsUnbroken) :
    (∀ line ∈ (lines cx steps).value, line.content.OnOneLine) ↔
      ∀ s ∈ steps, s.OnOneLine cx.sheets cx.knot (leadsTo cx.names) .ink :=
  forall_mem_writeSteps fun s hm l => onOneLine_stepLines l (hs s hm)

end Steps

section Knots

variable {p : Project} {names : FlowNames}

/-- Nothing that the steps of a flow show breaks a line. -/
def OnOneLine (sheets : List Sheet) (names : FlowNames) (f : Flow) : Prop :=
  f.OnOneLine sheets (names.nameOf digitGuard f) (leadsTo names) .ink

theorem unbroken_declarationLines (vars : List Variable) :
    (∀ line ∈ declarationLines vars, Unbroken line) ↔ ∀ v ∈ vars, ¬ v.HoldsReturn := by
  rw [declarationLines, List.forall_mem_map]
  refine forall₂_congr fun v _ => ?_
  have hr : Unbroken (variableRef v) := Dialect.ink.unbroken_reference v.sheet v.name
  simp +decide [hr, v.unbroken_declaration]

/-- The line that a knot without lines gets is unbroken as well. -/
theorem onOneLine_knot (f : Flow) :
    (∀ line ∈ (knot p names f).value.allLines, line.content.OnOneLine) ↔
      OnOneLine p.sheets names f := by
  let cx := flowContext p names f
  have hsteps := f.labelsUnbroken_linearize
  rw [LinearScript.steps, List.forall_mem_append, List.forall_mem_flatMap] at hsteps
  have hbody : (∀ line ∈ (knot p names f).value.body, line.content.OnOneLine) ↔
      ∀ line ∈ (lines cx f.linearize.main).value, line.content.OnOneLine := by
    simp only [knot, bind, pure]
    split
    · rename_i he
      have hn : (lines cx f.linearize.main).value = [] := List.isEmpty_iff.mp he
      rw [hn, List.forall_mem_singleton]
      refine iff_of_true ?_ (List.forall_mem_nil _)
      simpa using (by decide : Unbroken ending)
    · exact Iff.rfl
  rw [OnOneLine, Flow.OnOneLine, LinearScript.steps, List.forall_mem_append,
    List.forall_mem_flatMap, Knot.allLines, List.forall_mem_append, hbody,
    onOneLine_lines hsteps.1, stitches_knot, List.forall_mem_flatMap, List.forall_mem_map]
  exact and_congr_right' (forall₂_congr fun s hs => onOneLine_lines (hsteps.2 s hs))

/-- The lines of the knots of a project are unbroken exactly when nothing that its steps show
breaks a line. -/
theorem onOneLine_knots (fs : List Flow) :
    (∀ line ∈ (knots p names fs).value.flatMap Knot.allLines, line.content.OnOneLine) ↔
      ∀ f ∈ fs, OnOneLine p.sheets names f := by
  rw [knots_value, List.flatMap_map, List.forall_mem_flatMap]
  exact forall₂_congr fun f _ => onOneLine_knot f

/-- The lines of the knots of a project. -/
def scriptLines (p : Project) : List Line :=
  (knots p (.ofFlows digitGuard p.flows) p.flows).value.flatMap Knot.allLines

end Knots

end StoryFlow.Ink
