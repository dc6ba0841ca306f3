import StoryFlow.Proofs.Export.Result

/-! # Errors that cannot be told

An error of an export is told by its message. Only the options can hold what no message shows: the
first field of them that is wrong is the format or the asset mode, and its value has no text.
Every other export, however malformed its project and its options are, ends with files or with an
error that is told.
-/

namespace StoryFlow

variable {α : Type}

/-- A result is there, or an error with a message. -/
def Told (result : Except ExportError α) : Prop :=
  ∀ e, result = .error e → e.message?.isSome

theorem ExportError.message?_eq_none_iff {e : ExportError} :
    e.message? = none ↔ ∃ e', e = .badOptions e' ∧ e'.message? = none := by
  cases e with
  | badOptions e => simp [message?]
  | badProject | refused | notImplemented => simp [message?]

/-- Where just the errors of options are passed on, what cannot be told is theirs. -/
theorem told_iff_of_badOptions {result : Except ExportError α} {settings : Settings} {now : String}
    {options : Option Json}
    (hbad : ∀ e, result = .error (.badOptions e) ↔ Options.read settings now options = .error e) :
    Told result ↔ ¬ Options.Untold options := by
  rw [← Options.exists_untold_iff settings now]
  constructor
  · rintro ht ⟨e, he, hm⟩
    have hsome : e.message?.isSome := ht _ ((hbad e).mpr he)
    simp [hm] at hsome
  · intro hn e he
    by_contra hsome
    have hm := Option.not_isSome_iff_eq_none.mp hsome
    obtain ⟨e', rfl, hm'⟩ := ExportError.message?_eq_none_iff.mp hm
    exact hn ⟨e', (hbad e').mp he, hm'⟩

section Results

variable (settings : Settings) (now : String) (project options : Option Json)

theorem ofStored_badOptions_iff (e : OptionsError) :
    Options.ofStored settings now options = .error (.badOptions e) ↔
      Options.read settings now options = .error e := by
  cases h : Options.read settings now options <;> simp [Options.ofStored, Except.mapError, h]

/-- Reading options and exporting give a result or a told error, unless the first wrong field of
the options is a format or an asset mode without a text. -/
theorem results_told_iff :
    (Told (Options.ofStored settings now options) ↔ ¬ Options.Untold options) ∧
    (Told (exportStored settings now project options).result ↔ ¬ Options.Untold options) :=
  ⟨told_iff_of_badOptions (ofStored_badOptions_iff settings now options),
    told_iff_of_badOptions exportStored_result_iff.1⟩

end Results

/-- Stored options whose format is an object with a field `toString`. -/
def Json.textlessFormat : Json :=
  .obj [("format", .obj [("toString", .null)])]

/-- Neither reading these options nor exporting with them ends in a result or in a told error. -/
theorem textless_format_untold :
    ¬ Told (Options.ofStored (.ofEnvironment fun _ => none) "" (some Json.textlessFormat)) ∧
    ¬ Told (exportStored (.ofEnvironment fun _ => none) "" (some Json.unentered)
      (some Json.textlessFormat)).result := by
  have hread : Options.read (.ofEnvironment fun _ => none) "" (some Json.textlessFormat) =
      .error (.unknownFormat (.obj [("toString", .null)])) := rfl
  refine ⟨fun ht => ?_, fun ht => ?_⟩
  · exact nomatch ht _ ((ofStored_badOptions_iff _ _ _ _).mpr hread)
  · exact nomatch ht _ (exportStored_of_error hread)

end StoryFlow
