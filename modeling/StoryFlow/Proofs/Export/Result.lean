import StoryFlow.CommandLine
import StoryFlow.Proofs.Json.Checked
import StoryFlow.Proofs.Options
import StoryFlow.Proofs.Project.Faults

/-! # How an export ends

Faulty options end an export, then a faulty project, then the errors that a validation finds in the
whole project, if the options ask for one. Every other export is written, in each format. What is
attached of a validation depends on the project alone.
-/

namespace StoryFlow

/-! ## Errors of projects -/

namespace Validation

variable {v : Validation}

theorem mem_errors {f : Finding} : f ∈ v.errors ↔ f ∈ v.findings ∧ f.level = .error := by
  simp [errors, ofLevel]

/-- Warnings decide nothing beside an error. -/
theorem status_eq_errors_iff : v.status = .errors ↔ ∃ f ∈ v.findings, f.level = .error := by
  rw [status]
  cases he : v.errors with
  | nil =>
    have hno : ¬ ∃ f ∈ v.findings, f.level = .error := fun ⟨f, hf, hl⟩ =>
      List.not_mem_nil (he ▸ mem_errors.mpr ⟨hf, hl⟩)
    by_cases hw : v.warnings.isEmpty <;> simp [hw, hno]
  | cons f fs =>
    have hf := mem_errors.mp (he ▸ List.mem_cons_self : f ∈ v.errors)
    simpa using ⟨f, hf⟩

end Validation

/-- A validation finds errors in the whole project. -/
def Project.HasErrors (p : Project) : Prop :=
  ∃ f ∈ p.validate.findings, f.level = .error

instance (p : Project) : Decidable p.HasErrors :=
  inferInstanceAs (Decidable (∃ f ∈ _, _))

namespace Options

variable (o : Options) (p : Project)

/-- The errors of a project hinder its export if the options ask for a validation. -/
def Refuses : Prop :=
  o.validateBeforeExport ∧ p.HasErrors

instance : Decidable (o.Refuses p) :=
  inferInstanceAs (Decidable (_ ∧ _))

/-- The validation that the options ask for. -/
def asked : Option Validation :=
  if o.validateBeforeExport then some p.validate else none

/-- What is left of the validation that the options ask for if only errors count. -/
theorem asked_filter :
    (o.asked p).filter (·.status = .errors) = if o.Refuses p then some p.validate else none := by
  have hs : p.validate.status = .errors ↔ p.HasErrors := Validation.status_eq_errors_iff
  by_cases hv : o.validateBeforeExport
  · by_cases he : p.HasErrors
    · simp [asked, Refuses, Option.filter, hv, he, hs.mpr he]
    · simp [asked, Refuses, Option.filter, hv, he, mt hs.mp he]
  · simp [asked, Refuses, hv]

end Options

/-! ## Ends of an export -/

theorem Project.exported_result (settings : Settings) (o : Options) (p : Project) :
    (p.exported settings o).result =
      if o.Refuses p then .error (.refused p.validate)
      else .ok (Exported.ofProject settings o p (o.asked p)).1 := by
  have ha := o.asked_filter p
  rw [Options.asked] at ha
  rw [Project.exported]
  by_cases hr : o.Refuses p
  · simp only [ha, hr, if_true]
  · simp only [ha, hr, if_false]
    rfl

section Ends

variable {settings : Settings} {now : String} {project options : Option Json}

theorem exportStored_of_error {e : OptionsError}
    (h : Options.read settings now options = .error e) :
    (exportStored settings now project options).result = .error (.badOptions e) := by
  simp [exportStored, Options.ofStored, Except.mapError, h]

theorem exportStored_of_faulty {o : Options} {issues : List Issue}
    (ho : Options.read settings now options = .ok o) (h : Project.read project = .faulty issues) :
    (exportStored settings now project options).result = .error (.badProject issues) := by
  simp [exportStored, Options.ofStored, Project.ofStored, Except.mapError, ho, h]

theorem exportStored_of_valid {o : Options} {p : Project}
    (ho : Options.read settings now options = .ok o) (h : Project.read project = .valid p) :
    exportStored settings now project options = p.exported settings o := by
  simp [exportStored, Options.ofStored, Project.ofStored, Except.mapError, ho, h]

/-- Each end has its own reason, and the reasons are looked for in this order. No export ends
because something is not implemented. -/
theorem exportStored_result_iff :
    (∀ e, (exportStored settings now project options).result = .error (.badOptions e) ↔
      Options.read settings now options = .error e) ∧
    (∀ issues, (exportStored settings now project options).result = .error (.badProject issues) ↔
      (∃ o, Options.read settings now options = .ok o) ∧
        Project.read project = .faulty issues) ∧
    (∀ v, (exportStored settings now project options).result = .error (.refused v) ↔
      ∃ o p, Options.read settings now options = .ok o ∧ Project.read project = .valid p ∧
        o.Refuses p ∧ v = p.validate) ∧
    (∀ x, (exportStored settings now project options).result = .ok x ↔
      ∃ o p, Options.read settings now options = .ok o ∧ Project.read project = .valid p ∧
        ¬ o.Refuses p ∧ x = (Exported.ofProject settings o p (o.asked p)).1) ∧
    ∀ operation, (exportStored settings now project options).result ≠
      .error (.notImplemented operation) := by
  cases ho : Options.read settings now options with
  | error e => simp [exportStored_of_error ho, eq_comm]
  | ok o =>
    cases hp : Project.read project with
    | faulty issues => simp [exportStored_of_faulty ho hp, eq_comm]
    | valid p =>
      by_cases hr : o.Refuses p
      · simp [exportStored_of_valid ho hp, p.exported_result, hr, eq_comm]
      · simp [exportStored_of_valid ho hp, p.exported_result, hr, eq_comm]

/-- The whole project is validated if the options ask for it, whatever is exported of it. -/
theorem validation?_exportStored {o : Options} {p : Project}
    (ho : Options.read settings now options = .ok o) (hp : Project.read project = .valid p) :
    Plan.validation? (exportStored settings now project options).result = o.asked p := by
  rw [exportStored_of_valid ho hp, p.exported_result]
  by_cases hr : o.Refuses p
  · simpa [hr, Plan.validation?, Options.asked] using hr.1
  · simp [hr, Plan.validation?, Exported.ofProject]

end Ends

/-- An export ends with the error of its options; else with the issues of its project; else with
what a validation finds in the whole project, if it is asked for and finds an error; else the
project is written. Every error has a message, and the validation does not depend on what is
exported of the project. -/
theorem exportStored_ends (settings : Settings) (now : String) (project options : Option Json)
    (h : Options.Plain options) :
    let result := (exportStored settings now project options).result
    (∀ e, result = .error (.badOptions e) ↔ Options.read settings now options = .error e) ∧
    (∀ issues, result = .error (.badProject issues) ↔
      (∃ o, Options.read settings now options = .ok o) ∧
        Project.read project = .faulty issues) ∧
    (∀ v, result = .error (.refused v) ↔
      ∃ o p, Options.read settings now options = .ok o ∧ Project.read project = .valid p ∧
        (o.validateBeforeExport ∧ p.HasErrors) ∧ v = p.validate) ∧
    (∀ x, result = .ok x ↔
      ∃ o p, Options.read settings now options = .ok o ∧ Project.read project = .valid p ∧
        ¬ (o.validateBeforeExport ∧ p.HasErrors) ∧
        x = (Exported.ofProject settings o p (o.asked p)).1) ∧
    (∀ e, result = .error e → e.message?.isSome ∧ ∀ issues, e = .badProject issues → issues ≠ []) ∧
    ∀ o p, Options.read settings now options = .ok o → Project.read project = .valid p →
      Plan.validation? result = if o.validateBeforeExport then some p.validate else none := by
  intro result
  obtain ⟨hbad, hfaulty, hrefused, hok, hleft⟩ :=
    @exportStored_result_iff settings now project options
  refine ⟨hbad, hfaulty, hrefused, hok, fun e he => ⟨?_, ?_⟩, fun o p => validation?_exportStored⟩
  · cases e with
    | badOptions e => exact Options.message?_isSome h ((hbad e).mp he)
    | badProject | refused => rfl
    | notImplemented operation => exact absurd he (hleft operation)
  · rintro issues rfl rfl
    exact Project.told_read project ((hfaulty []).mp he).2

/-- A stored project whose one flow has no entry. -/
def Json.unentered : Json :=
  .obj [("project", .obj [("id", .str "1"), ("name", .str "Cellar")]),
    ("flows", .arr [.obj [("id", .str "1"), ("name", .str "Hall")]])]

/-- The project that is read of it. -/
def Project.unentered : Project :=
  ⟨⟨"1", "Cellar", none, none, []⟩, [],
    [⟨"1", none, "Hall", none, none, false, [], [], []⟩], [], [], .empty, []⟩

/-- Stored options that select no flow. -/
def Json.selectingNone : Json :=
  .obj [("format", .str "ink"), ("flow_ids", .arr [])]

/-- The project is refused for a flow that would not have been exported. -/
theorem unentered_refused :
    Options.Plain (some Json.selectingNone) ∧
    ∃ v, (exportStored (.ofEnvironment fun _ => none) "" (some Json.unentered)
        (some Json.selectingNone)).result = .error (.refused v) ∧
      v.findings = [.missingEntry ⟨"1", "Hall"⟩] := by
  have hplain : Options.Plain (some Json.selectingNone) := by
    rintro fs ⟨⟩ key hkey j hj
    rcases List.mem_pair.mp hkey with rfl | rfl
    · obtain rfl := Option.some.inj hj
      decide
    · exact nomatch hj
  have ho : ∃ o, Options.read (.ofEnvironment fun _ => none) "" (some Json.selectingNone) = .ok o ∧
      o.validateBeforeExport := ⟨_, rfl, rfl⟩
  obtain ⟨o, ho, hv⟩ := ho
  have hp : Project.read (some Json.unentered) = .valid Project.unentered := by decide +kernel
  have hfindings : Project.unentered.validate.findings = [.missingEntry ⟨"1", "Hall"⟩] := by
    decide +kernel
  obtain ⟨-, -, hrefused, -⟩ := exportStored_ends (.ofEnvironment fun _ => none) ""
    (some Json.unentered) (some Json.selectingNone) hplain
  have herrors : Project.unentered.HasErrors := ⟨_, hfindings ▸ List.mem_singleton_self _, rfl⟩
  exact ⟨hplain, _, (hrefused _).mpr ⟨o, _, ho, hp, ⟨hv, herrors⟩, rfl⟩, hfindings⟩

end StoryFlow
