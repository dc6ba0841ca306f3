import StoryFlow.Graph.Step
import StoryFlow.Proofs.Expr.LineBreaks
import StoryFlow.Proofs.Graph.Labels
import StoryFlow.Proofs.Graph.Origin
import StoryFlow.Proofs.Script.FlowNames
import StoryFlow.Proofs.Text.Escapes
import StoryFlow.Script.Metadata

/-! # Line breaks in what steps show

Spoken texts, labels of choices and places are put on one line, which a carriage return can
survive. The name of a speaker, the names of flows and the id of a subflow without a target are
written as they are. A flow has a name with a line break only when the id of a flow has one.
-/

namespace StoryFlow

open Text

/-- Escapes that can be read back add no line break and take none away. -/
theorem Text.unbroken_escaped {escape : List Char → List Char}
    (h : ∀ cs, unescape (escape cs) = cs) (s : String) :
    Unbroken (onChars escape s) ↔ Unbroken s := by
  have hslash : ¬ EndsLine '\\' := by decide
  rw [unbroken_onChars, ← forall_mem_unescape hslash, h, Unbroken]

section Declarations

variable {cs : List Char} {s : String}

/-- A carriage return that no line feed follows. -/
def Text.BareReturn (cs : List Char) : Prop :=
  ∃ before after, cs = before ++ '\r' :: after ∧ after.head? ≠ some '\n'

theorem Text.bareReturn_cons {c : Char} :
    BareReturn (c :: cs) ↔ (c = '\r' ∧ cs.head? ≠ some '\n') ∨ BareReturn cs := by
  constructor
  · rintro ⟨before, after, he, ha⟩
    cases before with
    | nil =>
      obtain ⟨rfl, rfl⟩ := List.cons.inj he
      exact Or.inl ⟨rfl, ha⟩
    | cons b before =>
      obtain ⟨rfl, rfl⟩ := List.cons.inj he
      exact Or.inr ⟨before, after, rfl, ha⟩
  · rintro (⟨rfl, ha⟩ | ⟨before, after, rfl, ha⟩)
    · exact ⟨[], cs, rfl, ha⟩
    · exact ⟨c :: before, after, rfl, ha⟩

theorem Value.not_endsLine_declaredChar {c : Char} :
    (∀ a ∈ declaredChar c, ¬ EndsLine a) ↔ c ≠ '\r' := by
  unfold declaredChar
  split
  · subst_vars
    decide
  · split
    · subst_vars
      decide
    · split
      · subst_vars
        decide
      · simp_all [EndsLine]

theorem Value.not_endsLine_declaredChars :
    (∀ c ∈ declaredChars cs, ¬ EndsLine c) ↔ ¬ BareReturn cs := by
  induction cs with
  | nil =>
    refine iff_of_true (by simp [declaredChars]) ?_
    rintro ⟨before, after, h, -⟩
    simp at h
  | cons c cs ih =>
    rw [declaredChars, List.forall_mem_append, ih, bareReturn_cons, not_or, not_and_not_right]
    refine and_congr_left fun _ => ?_
    split
    · rename_i h
      exact iff_of_true (by simp) fun _ => h.2
    · rename_i h
      rw [not_endsLine_declaredChar]
      tauto

/-- The variable starts with a text in which a carriage return stands by itself. -/
def Variable.HoldsReturn (v : Variable) : Prop :=
  v.type = .string ∧ ∃ s, v.initial = .text s ∧ BareReturn s.toList

theorem Variable.unbroken_declaration (v : Variable) :
    Unbroken v.declaration ↔ ¬ v.HoldsReturn := by
  have htext : ∀ s, Unbroken ("\"" ++ Text.onChars Value.declaredChars s ++ "\"") ↔
      ¬ BareReturn s.toList := by
    intro s
    rw [← Value.not_endsLine_declaredChars, ← unbroken_onChars]
    simp +decide
  unfold declaration HoldsReturn
  cases v.type with
  | number =>
    refine iff_of_true ?_ (by simp)
    cases v.initial with
    | number n => exact n.unbroken_text
    | boolean | text => exact (by decide : Unbroken "0")
  | boolean =>
    refine iff_of_true ?_ (by simp)
    cases v.initial with
    | boolean b => cases b <;> decide
    | number | text => exact (by decide : Unbroken "false")
  | string =>
    cases v.initial with
    | text s => simpa [Value.declaration] using htext s
    | number | boolean => exact iff_of_true (by decide : Unbroken "\"\"") (by simp)

end Declarations

section Shown

/-- The text that is shown for a response, unless it is too empty for that. -/
def Response.shown (r : Response) : String :=
  if Text.singleLine (Markup.strip r.text) = "" then Markup.strip? r.menuText
  else Markup.strip r.text

theorem Response.unbroken_label (r : Response) : Unbroken r.label ↔ ¬ LoneReturn r.shown.toList := by
  have hempty : Unbroken "" := by decide
  unfold label shown
  by_cases ht : Text.singleLine (Markup.strip r.text) = ""
  · rw [if_pos ht, ← unbroken_singleLine]
    by_cases hm : Text.singleLine (Markup.strip? r.menuText) = ""
    · simpa [ht, hm, hempty] using (by decide : Unbroken "...")
    · simp [ht, hm]
  · rw [if_neg ht, ← unbroken_singleLine]
    simp [ht]

namespace Step

/-- The text of a step that is put on one line. -/
@[simp] def text? : Step → Option String
  | .dialogue _ d => some d.spoken
  | .choice _ r _ => some r.shown
  | .scene _ s => s.place
  | _ => none

/-- The name that stands before what a step says. -/
@[simp] def speaker? (sheets : List Sheet) : Step → Option String
  | .dialogue _ d =>
    if Text.singleLine d.spoken = "" then none else given ((d.speakerIn sheets).map Sheet.name)
  | _ => none

/-- The names of flows that a step leads to, or the id of a subflow that leads nowhere. Sections
belong to the flow with the given name. -/
@[simp] def flowNames (own : String) (resolve : FlowTarget → Option String) : Step → List String
  | .subflow id s => [(resolve s.flowTarget).getD id]
  | .jump _ j target =>
    match j.flowShortcut with
    | some shortcut => (resolve ⟨none, some shortcut⟩).toList
    | none => if target = "unknown" then [] else [own]
  | .divert _ => [own]
  | _ => []

/-- Nothing that a step shows breaks a line. -/
structure OnOneLine (sheets : List Sheet) (own : String) (resolve : FlowTarget → Option String)
    (d : Dialect) (s : Step) : Prop where
  text : ∀ t ∈ s.text?, ¬ LoneReturn t.toList
  speaker : ∀ name ∈ s.speaker? sheets, Unbroken name
  flows : ∀ name ∈ s.flowNames own resolve, Unbroken name
  rules : ∀ r ∈ s.rules, r.OnOneLine d

section OnOneLine

variable {sheets : List Sheet} {own : String} {resolve : FlowTarget → Option String} {d : Dialect}
  {id : String} {i : Nat}

theorem onOneLine_iff {s : Step} : s.OnOneLine sheets own resolve d ↔
    (∀ t ∈ s.text?, ¬ LoneReturn t.toList) ∧ (∀ name ∈ s.speaker? sheets, Unbroken name) ∧
      (∀ name ∈ s.flowNames own resolve, Unbroken name) ∧ ∀ r ∈ s.rules, r.OnOneLine d :=
  ⟨fun h => ⟨h.text, h.speaker, h.flows, h.rules⟩, fun ⟨ht, hs, hf, hr⟩ => ⟨ht, hs, hf, hr⟩⟩

/-- A dialogue shows its text and who speaks, unless the text is too empty for that. -/
theorem onOneLine_dialogue {x : Dialogue} : (dialogue id x).OnOneLine sheets own resolve d ↔
    (Text.singleLine x.spoken ≠ "" → Unbroken (Text.singleLine x.spoken) ∧
      ∀ name ∈ given ((x.speakerIn sheets).map Sheet.name), Unbroken name) := by
  rw [onOneLine_iff]
  by_cases ht : Text.singleLine x.spoken = ""
  · have hu : Unbroken (Text.singleLine x.spoken) := by
      rw [ht]
      decide
    simpa [ht] using unbroken_singleLine.mp hu
  · simp [ht, unbroken_singleLine]

theorem onOneLine_choice {r : Response} : (choice id r i).OnOneLine sheets own resolve d ↔
    Unbroken r.label ∧ ∀ test ∈ (Condition.guard? d r.condition).value, Unbroken test := by
  rw [onOneLine_iff, Condition.unbroken_guard?, r.unbroken_label]
  simp

theorem onOneLine_conditionBranch {b : Branching} {c : Case} :
    (conditionBranch id b c i).OnOneLine sheets own resolve d ↔
      ∀ test ∈ (b.guard d c i).value.expr?, Unbroken test := by
  rw [onOneLine_iff, Branching.unbroken_guard]
  simp

end OnOneLine

/-- The labels that a step names hold no line breaks. -/
def LabelsUnbroken : Step → Prop
  | .jump _ _ target | .divert target => Unbroken target
  | _ => True

end Step

/-- Nothing that the steps of a flow show breaks a line. -/
def Flow.OnOneLine (sheets : List Sheet) (own : String) (resolve : FlowTarget → Option String)
    (d : Dialect) (f : Flow) : Prop :=
  ∀ s ∈ f.linearize.steps, s.OnOneLine sheets own resolve d

section Labels

theorem Hub.unbroken_labelAt (h : Hub) (id : String) : Unbroken (h.labelAt id) := by
  unfold labelAt
  simp only
  split <;> exact unbroken_identifier _

theorem unbroken_indentation (depth : Nat) : Unbroken (indentation depth) := by
  rw [indentation, Unbroken, String.toList_ofList]
  exact not_endsLine_replicate (by decide)

theorem unbroken_freshName {base : String} (taken : List String) (hb : Unbroken base) :
    Unbroken (freshName taken base) := by
  rcases freshName_eq taken base with h | ⟨k, h⟩
  · rwa [h]
  · rw [h]
    have hu : Unbroken "_" := by decide
    simp only [unbroken_append, hb, hu, unbroken_toString, and_self]

theorem Section.unbroken_label {f : Flow} {s : Section} (hs : s ∈ f.linearize.sections) :
    Unbroken s.label := by
  rcases f.label_of_section hs with ⟨h, he⟩ | ⟨taken, he⟩
  · exact he ▸ h.unbroken_labelAt _
  · exact he ▸ unbroken_freshName _ (unbroken_identifier _)

/-- The target that a jump names holds no line break. -/
def Step.JumpUnbroken : Step → Prop
  | .jump _ _ target => Unbroken target
  | _ => True

theorem Linearize.unbroken_jumpTarget (index : Index) (id : String) (j : Jump) :
    Unbroken (jumpTarget index id j) := by
  unfold jumpTarget
  split
  · exact unbroken_identifier _
  · cases jumpHub index id j with
    | none => exact (by decide : Unbroken "unknown")
    | some h =>
      rw [Option.map_some, Option.getD_some]
      exact h.2.unbroken_labelAt h.1

theorem Flow.jumpUnbroken_linearize (f : Flow) :
    ∀ s ∈ f.linearize.steps, s.JumpUnbroken := by
  refine f.forall_linearize ?_ (fun _ _ _ _ => trivial) fun n _ j _ => ?_
  · intro s hs
    cases s
    case jump => exact absurd trivial hs
    all_goals trivial
  · exact Linearize.unbroken_jumpTarget f.index n.id j

/-- Targets are made of identifiers. -/
theorem Flow.labelsUnbroken_linearize (f : Flow) :
    ∀ s ∈ f.linearize.steps, s.LabelsUnbroken := by
  intro s hs
  cases s with
  | jump id j target => exact f.jumpUnbroken_linearize _ hs
  | divert target =>
    obtain ⟨t, ht, rfl⟩ := f.lands_linearize _ hs
    exact Section.unbroken_label ht
  | _ => trivial

end Labels

section Names

variable {flows : List Flow} {f : Flow} {guard : String}

theorem UniqueKeys.unbroken_choose {i name : String} (taken : List String) (hi : Unbroken i)
    (hn : Unbroken name) : Unbroken (choose taken i name) := by
  have hu : Unbroken "_" := by decide
  rcases choose_eq taken i name with h | ⟨rest, h, rfl | ⟨k, rfl⟩⟩
  · rwa [h]
  · rw [h]
    simp only [unbroken_append, hn, hu, hi, and_self]
  · rw [h]
    simp only [unbroken_append, hn, hu, hi, unbroken_toString, and_self]

theorem Flow.unbroken_identifier (hg : Unbroken guard) (hf : Unbroken f.id) :
    Unbroken (f.identifier guard) := by
  unfold Flow.identifier
  rw [unbroken_guardDigit hg]
  split
  · exact unbroken_append.mpr ⟨by decide, hf⟩
  · exact Text.unbroken_identifier _

/-- The name of a flow holds no line break unless the id of a flow does. -/
theorem FlowNames.unbroken_nameOf (hg : Unbroken guard) (hids : ∀ f ∈ flows, Unbroken f.id)
    (hf : f ∈ flows) : Unbroken ((ofFlows guard flows).nameOf guard f) := by
  obtain ⟨g, hgm, -, taken, hn⟩ := nameOf_eq guard hf
  rw [hn]
  exact UniqueKeys.unbroken_choose taken (hids f hf) (Flow.unbroken_identifier hg (hids g hgm))

end Names

end Shown

end StoryFlow
