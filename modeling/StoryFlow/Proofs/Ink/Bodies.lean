import Mathlib.Data.List.Forall2
import StoryFlow.Proofs.Expr.Statements
import StoryFlow.Proofs.Ink.Escape
import StoryFlow.Proofs.Ink.Transfers
import StoryFlow.Proofs.Script.Modes

/-! # Bodies of knots and stitches

A knot without lines of its own ends the story, so there is something behind the header of every
knot. A stitch gets the lines of its section and nothing in their place: behind its header there is
nothing when the steps of the section write nothing.
-/

namespace StoryFlow

/-- The step has no line in an Ink script. -/
def Step.IsSilent : Step → Prop
  | .dialogue _ d => d.spoken = ""
  | .choicesStart _ | .choicesEnd _ => True
  | .conditionStart _ b | .conditionEnd _ b => b.cases = []
  | .instruction _ assignments =>
    ∀ a ∈ Assignment.ofList assignments, a.operator ∉ Assignment.operators
  | .choice .. | .conditionBranch .. | .scene .. | .subflow .. | .jump .. | .divert _
  | .exit _ => False

namespace Ink

section Lines

variable {cx : Context}

theorem statementLines_eq_nil {depth : Nat} {assignments : List Json} :
    (statementLines depth assignments).value = [] ↔
      ∀ a ∈ Assignment.ofList assignments, a.operator ∉ Assignment.operators := by
  have hl : (statementLines depth assignments).value =
      (Assignment.statements .ink assignments).value.map fun s => ⟨depth, .statement s⟩ := rfl
  rw [hl, List.map_eq_nil_iff, Assignment.statements_eq, List.filterMap_eq_nil_iff]
  refine forall₂_congr fun a _ => ?_
  rw [← Assignment.statement?_isSome .ink, Bool.not_eq_true, Option.isSome_eq_false_iff,
    Option.isNone_iff_eq_none]

/-- A step without lines is silent, at every layout. -/
theorem stepLines_eq_nil {l : Layout} {s : Step} :
    (stepLines cx l s).value = [] ↔ s.IsSilent := by
  cases s with
  | dialogue id d =>
    have hempty : Text.singleLine d.spoken = "" ↔ d.spoken = "" := Text.singleLine_eq_empty
    simp [stepLines, pure, hempty, Step.IsSilent]
  | instruction id assignments => exact statementLines_eq_nil
  | conditionStart id b | conditionEnd id b => simp [stepLines, pure, Step.IsSilent]
  | choicesStart | choicesEnd => exact iff_of_true rfl trivial
  | choice | conditionBranch | scene | subflow | jump | divert | exit =>
    exact iff_of_false (List.cons_ne_nil _ _) not_false

theorem lines_eq_nil {ss : List Step} :
    (lines cx ss).value = [] ↔ ∀ s ∈ ss, s.IsSilent := by
  rw [List.eq_nil_iff_forall_not_mem]
  refine forall_mem_writeSteps fun s _ l => ?_
  rw [← stepLines_eq_nil, List.eq_nil_iff_forall_not_mem]

end Lines

section Texts

/-- What is said or done is not empty. -/
def Content.Filled : Content → Prop
  | .speech _ text => text ≠ ""
  | .statement s => s ≠ ""
  | _ => True

theorem Content.Filled.write_ne_empty {c : Content} (h : c.Filled) : c.write ≠ "" := by
  cases c with
  | speech speaker text =>
    have he : escape text ≠ "" := by
      rw [escape, Text.onChars, ne_eq, String.ofList_eq_empty_iff]
      exact escapeChars_ne_nil (String.toList_eq_nil_iff.not.mpr h)
    cases speaker with
    | none => exact he
    | some speaker => simp [write]
  | statement s => exact h
  | choice weave label guard => cases guard <;> simp [write]
  | branch guard => cases guard <;> simp [write]
  | scene place => cases place <;> simp [write]
  | opening | closing | comeBack => decide
  | tunnel | missingFlow | divert => simp [write]

theorem filled_statementLines (depth : Nat) (assignments : List Json) :
    ∀ l ∈ (statementLines depth assignments).value, l.content.Filled := by
  intro l hl
  obtain ⟨s, hs, rfl⟩ := List.mem_map.mp hl
  rw [Assignment.statements_eq] at hs
  obtain ⟨a, -, ha⟩ := List.mem_filterMap.mp hs
  exact Assignment.statement?_ne_empty ha

theorem filled_stepLines (cx : Context) (l : Layout) (s : Step) :
    ∀ line ∈ (stepLines cx l s).value, line.content.Filled := by
  cases s with
  | dialogue id d =>
    simp only [stepLines, pure]
    split
    · exact List.forall_mem_nil _
    · rename_i hd
      exact List.forall_mem_singleton.mpr hd
  | choice id r i =>
    rw [stepLines_choice, List.forall_mem_append]
    exact ⟨List.forall_mem_singleton.mpr trivial, filled_statementLines _ _⟩
  | instruction id assignments => exact filled_statementLines _ _
  | conditionStart id b | conditionEnd id b =>
    simp only [stepLines, pure]
    split <;> simp [Content.Filled]
  | subflow id s =>
    refine List.forall_mem_singleton.mpr ?_
    simp only [subflowContent]
    split <;> trivial
  | exit id =>
    refine List.forall_mem_singleton.mpr ?_
    simp only [exitContent]
    split <;> trivial
  | conditionBranch | scene | jump | divert => exact List.forall_mem_singleton.mpr trivial
  | choicesStart | choicesEnd => exact List.forall_mem_nil _

theorem filled_lines (cx : Context) (ss : List Step) :
    ∀ line ∈ (lines cx ss).value, line.content.Filled :=
  (forall_mem_writeSteps fun s _ l => iff_true_intro (filled_stepLines cx l s)).mpr
    fun _ _ => trivial

end Texts

section Knots

variable {p : Project} {names : FlowNames}

/-- A stitch with its section: it is without lines exactly when the section is silent. -/
structure Stitch.Of (t : Section) (s : Stitch) : Prop where
  name : s.name = stitchName t.label
  body : s.body = [] ↔ ∀ step ∈ t.steps, step.IsSilent
  filled : ∀ l ∈ s.body, l.content.write ≠ ""

/-- A knot with its flow: it has lines, if need be one that ends the story, and the stitches of the
sections. -/
structure Knot.Of (names : FlowNames) (f : Flow) (k : Knot) : Prop where
  name : k.name = names.nameOf digitGuard f
  body : k.body ≠ []
  silent : (∀ step ∈ f.linearize.main, step.IsSilent) → k.body = [⟨0, .divert ending⟩]
  filled : ∀ l ∈ k.body, l.content.write ≠ ""
  stitches : List.Forall₂ Stitch.Of f.linearize.sections k.stitches

theorem of_section (cx : Context) (t : Section) :
    Stitch.Of t ⟨stitchName t.label, (lines cx t.steps).value⟩ where
  name := rfl
  body := lines_eq_nil
  filled l hl := (filled_lines cx t.steps l hl).write_ne_empty

theorem of_knot (f : Flow) : Knot.Of names f (knot p names f).value := by
  let body := (lines (flowContext p names f) f.linearize.main).value
  have hbody : (knot p names f).value.body =
      if body.isEmpty then [⟨0, .divert ending⟩] else body := rfl
  have hnil : body = [] ↔ ∀ step ∈ f.linearize.main, step.IsSilent := lines_eq_nil
  refine ⟨rfl, ?_, ?_, ?_, ?_⟩
  · rw [hbody]
    split
    · exact List.cons_ne_nil _ _
    · rename_i he
      exact fun h => he (List.isEmpty_iff.mpr h)
  · intro hs
    rw [hbody, if_pos (List.isEmpty_iff.mpr (hnil.mpr hs))]
  · rw [hbody]
    split
    · exact List.forall_mem_singleton.mpr (by decide)
    · exact fun l hl => (filled_lines _ _ l hl).write_ne_empty
  · rw [stitches_knot, List.forall₂_map_right_iff]
    exact List.forall₂_same.mpr fun t _ => of_section _ t

end Knots

/-- The knots of an export are those of its flows, with lines behind every header of a knot. Behind
the header of a stitch there are lines unless its section is silent. -/
theorem bodies_filled (s : Settings) (o : Options) (p : Project) :
    let files := scripts s.multiFileThreshold p
    (output s o p).value = .files (files.map Script.write ++ [metadataFile o p]) ∧
      List.Forall₂ (Knot.Of (.ofFlows digitGuard p.flows)) p.flows
        (files.flatMap Script.knots) := by
  intro files
  refine ⟨output_value s o p, ?_⟩
  rw [(scripts_hold s.multiFileThreshold p).2, knots_value, List.forall₂_map_right_iff]
  exact List.forall₂_same.mpr fun f _ => of_knot f

/-- A story that comes to a hub from which nothing leads on. -/
def camp : Project where
  info := ⟨"1", "Camp", none, none, []⟩
  sheets := []
  flows := [⟨"1", some "x", "X", none, none, false, [],
    [.ofStored "start" "entry" [] none none,
      .ofStored "rest" "hub" [("label", .str "camp")] none none],
    [⟨none, "start", "output", "rest", none, none⟩]⟩]
  scenes := []
  screenplays := []
  localization := .empty
  assets := []

/-- The stitch of the hub has no line. -/
theorem camp_stitch_empty :
    (scripts 5 camp).map Script.write = [⟨"story.ink", "-> x\n=== x ===\n-> x.camp\n\n= camp\n"⟩] ∧
      ¬ ∀ k ∈ (scripts 5 camp).flatMap Script.knots, k.body ≠ [] ∧
        ∀ s ∈ k.stitches, s.body ≠ [] := by
  decide +kernel

end Ink

end StoryFlow
