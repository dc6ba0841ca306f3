import StoryFlow.Export
import StoryFlow.Proofs.Ink.Transfers
import StoryFlow.Proofs.Project.Restrict
import StoryFlow.Proofs.Script.FlowNames
import StoryFlow.Proofs.Yarn.Transfers

/-! # Names of the files of an export

Flows have different names, and so have their files. A script that is spread over several files
has one more of its own, `main` in Ink and `variables` in Yarn, and a flow that asks for that name
gets it as well. Otherwise the files of an export have different names.
-/

namespace StoryFlow

def filenames (files : List OutputFile) : List String :=
  files.map OutputFile.filename

/-- The names, without their endings, of the files that a script has beside those of its flows. -/
def Format.ownNames (p : Project) : Format → List String
  | ink => ["main"]
  | yarn => if variablesOf p.sheets = [] then [] else ["variables"]
  | _ => []

/-- A script is spread over several files, and a flow asks for the name of one of its own. -/
def Options.Overwrites (settings : Settings) (o : Options) (p : Project) : Prop :=
  settings.multiFileThreshold < p.flows.length ∧
    ∃ name ∈ o.format.ownNames p, ∃ f ∈ p.flows, Text.identifier f.handle = name

instance (settings : Settings) (o : Options) (p : Project) : Decidable (o.Overwrites settings p) :=
  inferInstanceAs (Decidable (_ ∧ _))

section Names

variable {guard name ending : String} {format : Format} {p : Project}

/-- A name without an underscore or a leading digit is asked for by the flows whose handle has it
as its identifier. -/
theorem Flow.identifier_eq_iff {f : Flow} (hg : '_' ∈ guard.toList) (hn : '_' ∉ name.toList)
    (he : name ≠ "") (hd : Text.leadsWithDigit name = false) :
    f.identifier guard = name ↔ Text.identifier f.handle = name := by
  have hguard : ∀ s, guard ++ s ≠ name := by
    rintro s rfl
    simp [hg] at hn
  have hflow : "flow_" ++ f.id ≠ name := by
    rintro rfl
    simp at hn
  simp only [identifier, Text.guardDigit]
  split
  · rename_i ho
    rw [ho]
    refine iff_of_false ?_ (Ne.symm he)
    split
    · exact hguard _
    · exact hflow
  · split
    · rename_i hl
      refine iff_of_false (hguard _) ?_
      rintro rfl
      simp [hd] at hl
    · exact Iff.rfl

theorem Format.ownNames_plain (hn : name ∈ format.ownNames p) :
    '_' ∉ name.toList ∧ name ≠ "" ∧ Text.leadsWithDigit name = false := by
  unfold ownNames at hn
  split at hn
  · obtain rfl := List.mem_singleton.mp hn
    decide
  · split at hn
    · simp at hn
    · obtain rfl := List.mem_singleton.mp hn
      decide
  · simp at hn

theorem Format.nodup_ownNames (format : Format) (p : Project) : (format.ownNames p).Nodup := by
  unfold ownNames
  split
  · exact List.nodup_singleton _
  · split
    · exact List.nodup_nil
    · exact List.nodup_singleton _
  · exact List.nodup_nil

/-- The name of a script file is not that of the metadata. -/
theorem append_ne_metadata (he : ending ∈ [".ink", ".yarn"]) (s : String) :
    s ++ ending ≠ "metadata.json" := by
  intro h
  have ht := congrArg (fun t => t.toList.reverse.take 4) h
  simp only [List.mem_cons, List.not_mem_nil, or_false] at he
  rcases he with rfl | rfl <;> simp at ht

theorem nodup_append_metadata {names : List String} (he : ending ∈ [".ink", ".yarn"]) :
    (names.map (· ++ ending) ++ ["metadata.json"]).Nodup ↔ names.Nodup := by
  have hinj : Function.Injective (· ++ ending) := fun a b h => (String.append_left_inj _).mp h
  rw [List.nodup_append, List.nodup_map_iff hinj]
  refine ⟨fun h => h.1, fun h => ⟨h, List.nodup_singleton _, ?_⟩⟩
  rintro a ha b hb rfl
  obtain ⟨s, -, hs⟩ := List.mem_map.mp ha
  exact append_ne_metadata he s (hs.trans (List.mem_singleton.mp hb))

/-- The format's own names and those of the flows differ when no flow asks for one of the former. -/
theorem nodup_ownNames_append (hd : (p.flows.map Flow.id).Nodup) (hg : '_' ∈ guard.toList) :
    (format.ownNames p ++
        p.flows.map fun f => (FlowNames.ofFlows guard p.flows).nameOf guard f).Nodup ↔
      ¬ ∃ name ∈ format.ownNames p, ∃ f ∈ p.flows, Text.identifier f.handle = name := by
  have hasked : ∀ name ∈ format.ownNames p,
      (name ∈ p.flows.map fun f => (FlowNames.ofFlows guard p.flows).nameOf guard f) ↔
        ∃ f ∈ p.flows, Text.identifier f.handle = name := by
    intro name hm
    obtain ⟨hn, he, hl⟩ := Format.ownNames_plain hm
    rw [List.mem_map]
    refine (FlowNames.names_iff hd hn).trans (exists_congr fun f => and_congr_right fun _ => ?_)
    exact Flow.identifier_eq_iff hg hn he hl
  rw [List.nodup_append]
  constructor
  · rintro ⟨-, -, hne⟩ ⟨name, hm, hf⟩
    exact hne name hm name ((hasked name hm).mpr hf) rfl
  · intro h
    refine ⟨Format.nodup_ownNames format p, FlowNames.nodup_names hd, ?_⟩
    rintro name hm _ hn rfl
    exact h ⟨name, hm, (hasked name hm).mp hn⟩

/-- The names of the script files of a project: those of the format and of the flows when it is
spread over several files, and else its own. -/
def scriptNames (format : Format) (guard : String) (threshold : Nat) (p : Project) : List String :=
  if threshold < p.flows.length then
    format.ownNames p ++ p.flows.map fun f => (FlowNames.ofFlows guard p.flows).nameOf guard f
  else [p.info.identifier]

theorem nodup_scriptNames (settings : Settings) (o : Options) (hd : (p.flows.map Flow.id).Nodup)
    (hg : '_' ∈ guard.toList) :
    (scriptNames o.format guard settings.multiFileThreshold p).Nodup ↔
      ¬ o.Overwrites settings p := by
  rw [scriptNames, Options.Overwrites]
  split
  · rename_i ht
    rw [nodup_ownNames_append hd hg, and_iff_right ht]
  · rename_i ht
    exact iff_of_true (List.nodup_singleton _) fun h => ht h.1

end Names

namespace Yarn

variable {names : FlowNames}

theorem filenames_writeFiles (n : Nat) (fs : List File) :
    filenames (writeFiles n fs) = fs.map File.filename := by
  induction fs generalizing n with
  | nil => rfl
  | cons f fs ih => exact congrArg (f.filename :: ·) (ih _)

theorem flows_allNodes (sheets : List Sheet) (preamble : List Line) (fs : List Flow) :
    (allNodes sheets names preamble fs).value.map Prod.fst = fs := by
  induction fs generalizing preamble with
  | nil => rfl
  | cons f fs ih => exact congrArg (f :: ·) (ih _)

theorem filenames_manyFiles (p : Project) (names : FlowNames) :
    (manyFiles p names).value.map File.filename =
      (Format.yarn.ownNames p ++ p.flows.map fun f => names.nameOf digitGuard f).map
        (· ++ ".yarn") := by
  have hflows : ((allNodes p.sheets names [] p.flows).value.map Prod.fst).map
        (fun f => names.nameOf digitGuard f ++ ".yarn") =
      p.flows.map fun f => names.nameOf digitGuard f ++ ".yarn" :=
    congrArg _ (flows_allNodes p.sheets [] p.flows)
  have hown : (declarationNodes (variablesOf p.sheets)).map (fun _ => "variables.yarn") =
      (Format.yarn.ownNames p).map (· ++ ".yarn") := by
    unfold declarationNodes Format.ownNames
    by_cases hv : variablesOf p.sheets = []
    · simp [hv]
    · simp [hv]
  rw [List.map_append, ← hown]
  simpa [manyFiles, bind, pure, Function.comp_def] using hflows

theorem filenames_output (settings : Settings) (o : Options) (p : Project) (name : String) :
    filenames ((output settings o p).value.filesNamed name) =
      (scriptNames .yarn digitGuard settings.multiFileThreshold p).map (· ++ ".yarn") ++
        ["metadata.json"] := by
  have h : filenames ((output settings o p).value.filesNamed name) =
      (scriptFiles settings.multiFileThreshold p
        (.ofFlows digitGuard p.flows)).value.map File.filename ++ ["metadata.json"] := by
    simp [output, Output.filesNamed, ← filenames_writeFiles 0, filenames]
  rw [h, scriptFiles, scriptNames]
  split
  · rw [filenames_manyFiles]
  · rfl

end Yarn

namespace Ink

theorem filenames_manyFiles (p : Project) (names : FlowNames) :
    filenames (manyFiles p names (knots p names p.flows).value) =
      (Format.ink.ownNames p ++ p.flows.map fun f => names.nameOf digitGuard f).map
        (· ++ ".ink") := by
  rw [knots_value]
  simp [filenames, manyFiles, Format.ownNames, Function.comp_def, knot, bind, pure]

theorem filenames_output (settings : Settings) (o : Options) (p : Project) (name : String) :
    filenames ((output settings o p).value.filesNamed name) =
      (scriptNames .ink digitGuard settings.multiFileThreshold p).map (· ++ ".ink") ++
        ["metadata.json"] := by
  have h : filenames ((output settings o p).value.filesNamed name) =
      filenames (scriptFiles settings.multiFileThreshold p (.ofFlows digitGuard p.flows)
        (knots p (.ofFlows digitGuard p.flows) p.flows).value) ++ ["metadata.json"] := by
    simp [output, Output.filesNamed, filenames]
  rw [h, scriptFiles, scriptNames]
  split
  · rw [filenames_manyFiles]
  · rfl

end Ink

theorem Options.nodup_filenames_iff (settings : Settings) (o : Options) {p : Project}
    (hd : (p.flows.map Flow.id).Nodup) (name : String) :
    (filenames ((o.output settings p).value.filesNamed name)).Nodup ↔
      ¬ o.Overwrites settings p := by
  cases hf : o.format with
  | ink =>
    have ho : o.output settings p = Ink.output settings o p := by rw [output, hf]
    rw [ho, Ink.filenames_output, nodup_append_metadata (by simp), ← hf]
    exact nodup_scriptNames settings o hd (by decide)
  | yarn =>
    have ho : o.output settings p = Yarn.output settings o p := by rw [output, hf]
    rw [ho, Yarn.filenames_output, nodup_append_metadata (by simp), ← hf]
    exact nodup_scriptNames settings o hd (by decide)
  | unreal =>
    simp only [output, Overwrites, hf]
    refine iff_of_true ?_ (by simp [Format.ownNames])
    change ["DT_DialogueLines.csv", "DT_Characters.csv", "DT_Variables.csv",
      "Conversations.json"].Nodup
    decide
  | native | unity | godot | articy =>
    simp only [output, Overwrites, hf]
    exact iff_of_true (List.nodup_singleton _) (by simp [Format.ownNames])

namespace Project

variable {settings : Settings} {o : Options} {p : Project} {e : Exported}

theorem files_of_exported (h : (p.exported settings o).result = .ok e) :
    ∃ name, e.files = (o.output settings (p.restrict o)).value.filesNamed name := by
  simp only [exported] at h
  cases hv : (if o.validateBeforeExport then some p.validate else none).filter
      (·.status = .errors) with
  | some v => simp [hv] at h
  | none =>
    rw [hv] at h
    obtain rfl := Except.ok.inj h
    exact ⟨_, rfl⟩

/-- With distinct ids of flows, the files that a format writes for a project, and those of a whole
export, have different names exactly when no flow asks for the name of a file that the format
writes beside those of the flows. -/
theorem exported_filenames (settings : Settings) (o : Options) (p : Project)
    (hd : (p.flows.map Flow.id).Nodup) :
    (∀ name, (filenames ((o.output settings p).value.filesNamed name)).Nodup ↔
      ¬ o.Overwrites settings p) ∧
    ∀ e, (p.exported settings o).result = .ok e →
      ((filenames e.files).Nodup ↔ ¬ o.Overwrites settings (p.restrict o)) := by
  refine ⟨o.nodup_filenames_iff settings hd, ?_⟩
  intro e h
  obtain ⟨name, he⟩ := files_of_exported h
  rw [he]
  exact o.nodup_filenames_iff settings (hd.sublist ((p.restrict_sublist o .flows).map Flow.id)) name

/-- A hero with a purse, and a flow for each chapter. -/
def book (chapters : List String) : Project where
  info := ⟨"1", "Book", none, none, []⟩
  sheets := [⟨"1", "hero", "Hero", none, none, none,
    [⟨"2", "number", none, [], [], false, some "gold", none⟩]⟩]
  flows := chapters.zipIdx.map fun (chapter, i) =>
    ⟨toString i, some chapter, chapter, none, none, false, [],
      [.ofStored "start" "entry" [] none none], []⟩
  scenes := []
  screenplays := []
  localization := .empty
  assets := []

def bookOptions (format : Format) : Options :=
  ⟨format, "1.0.0", true, true, true, true, true, none, .all, .all, .all, .all, false, true, ""⟩

/-- The settings of an environment without variables: above five flows a script is spread over
several files. -/
def bookSettings : Settings := .ofEnvironment fun _ => none

theorem book_filenames :
    let p := book ["one", "two", "three", "four", "five", "six"]
    (p.flows.map Flow.id).Nodup ∧ ∃ e,
      (p.exported bookSettings (bookOptions .ink)).result = .ok e ∧ (filenames e.files).Nodup ∧
        filenames e.files = ["main.ink", "one.ink", "two.ink", "three.ink", "four.ink", "five.ink",
          "six.ink", "metadata.json"] := by
  intro p
  have hd : (p.flows.map Flow.id).Nodup := by decide
  refine ⟨hd, _, rfl, ?_, by decide +kernel⟩
  exact ((exported_filenames bookSettings (bookOptions .ink) p hd).2 _ rfl).mpr (by decide +kernel)

theorem book_overwritten :
    let p := book ["main", "variables", "three", "four", "five", "six"]
    (p.flows.map Flow.id).Nodup ∧ ∀ format ∈ [Format.ink, .yarn],
      ¬ (filenames (((bookOptions format).output bookSettings p).value.filesNamed "")).Nodup := by
  decide +kernel

end Project

end StoryFlow
