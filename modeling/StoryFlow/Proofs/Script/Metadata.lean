import StoryFlow.Proofs.Assoc
import StoryFlow.Proofs.Json.RoundTrip
import StoryFlow.Proofs.Text.Units
import StoryFlow.Script.Metadata

/-! # The metadata of a script

The functions that the host has to provide are listed once each in the order of names, and reading
the printed metadata back gives the list, or no such field when there is nothing to provide.
-/

namespace StoryFlow

section Functions

variable {ws : List Warning} {name : String}

theorem mem_requiredFunctions :
    name ∈ requiredFunctions ws ↔ name ∈ ws.filterMap Warning.function? := by
  rw [requiredFunctions, (Text.sortByUnits_perm _ _).mem_iff, List.mem_eraseDups]

theorem nodup_requiredFunctions (ws : List Warning) : (requiredFunctions ws).Nodup := by
  rw [requiredFunctions, (Text.sortByUnits_perm _ _).nodup_iff]
  exact Assoc.nodup_eraseDups _

theorem sorted_requiredFunctions (ws : List Warning) :
    (requiredFunctions ws).Pairwise fun a b => Text.unitsLE a b :=
  Text.pairwise_sortByUnits id _

end Functions

section Metadata

variable {style : MetadataStyle} {p : Project} {names : FlowNames} {ws : List Warning}

/-- The fields that map the names of a project to those of its script. -/
def MetadataStyle.mappings (style : MetadataStyle) (p : Project) (names : FlowNames) : Fields :=
  let keys := UniqueKeys.ofList p.flows Flow.id Flow.handle
  [(style.versionKey, .str formatVersion),
    ("project", .str p.info.name),
    ("characters", .obj (Fields.table (p.sheets.map fun s =>
      (s.shortcut, .obj [("name", .str s.name), (style.characterKey, .str s.name)])))),
    ("variable_mapping", .obj (Fields.table ((variablesOf p.sheets).map fun v =>
      (v.fullRef, .str (style.variableRef v))))),
    ("flow_mapping", .obj (Fields.table (p.flows.map fun f =>
      ((keys.get? f.id).getD f.id, .str ((names.byId.lookup f.id).getD "")))))]

theorem scriptMetadata_of_nil (h : requiredFunctions ws = []) :
    scriptMetadata style p names ws = .obj (Fields.ofList (style.mappings p names)) := by
  simp only [scriptMetadata, h, List.isEmpty_nil, if_true, List.append_nil]
  rfl

theorem scriptMetadata_of_ne_nil (h : requiredFunctions ws ≠ []) :
    scriptMetadata style p names ws = .obj (Fields.ofList (style.mappings p names ++
      [("required_functions", .arr ((requiredFunctions ws).map .str))])) := by
  simp only [scriptMetadata, List.isEmpty_iff, h, if_false]
  rfl

theorem proper_mappings (hc : Fields.Named ["name", style.characterKey]) :
    ∀ f ∈ style.mappings p names, f.2.Proper := by
  have hcharacter : ∀ s : Sheet,
      (Json.obj [("name", .str s.name), (style.characterKey, .str s.name)]).Proper :=
    fun s => .obj (Fields.ordered_of_named hc) (by simp)
  rw [MetadataStyle.mappings]
  simp only [List.forall_mem_cons, Json.Each.str_iff, true_and]
  refine ⟨Json.proper_table ?_, Json.proper_table ?_, Json.proper_table ?_, ?_⟩
  · exact List.forall_mem_map.mpr fun s _ => hcharacter s
  · exact List.forall_mem_map.mpr fun v _ => .str _
  · exact List.forall_mem_map.mpr fun f _ => .str _
  · simp

/-- The metadata is read back from its text. The functions are in a field of their own, which is
missing when there are none. -/
theorem read?_scriptMetadata (style : MetadataStyle)
    (hv : style.versionKey ≠ "required_functions")
    (hc : Fields.Named ["name", style.characterKey]) (p : Project) (names : FlowNames)
    (ws : List Warning) (isPretty : Bool) :
    ∃ fs, Json.read? ((scriptMetadata style p names ws).text isPretty) = some (.obj fs) ∧
      Fields.get? fs "required_functions" =
        if requiredFunctions ws = [] then none
        else some (.arr ((requiredFunctions ws).map .str)) := by
  by_cases hf : requiredFunctions ws = []
  · have hkeys : "required_functions" ∉ (style.mappings p names).map Prod.fst := by
      simp [MetadataStyle.mappings, hv.symm]
    rw [scriptMetadata_of_nil hf, if_pos hf,
      Json.read?_text (Json.proper_ofList (proper_mappings hc)), Json.printed_obj]
    refine ⟨_, rfl, ?_⟩
    rw [Fields.get?_mapValues, Fields.get?_ofList_of_not_mem hkeys, Option.map_none]
  · have hproper : ∀ f ∈ style.mappings p names ++
        [("required_functions", Json.arr ((requiredFunctions ws).map .str))], f.2.Proper := by
      refine List.forall_mem_append.mpr ⟨proper_mappings hc, ?_⟩
      exact List.forall_mem_singleton.mpr (.arr (List.forall_mem_map.mpr fun s _ => .str s))
    rw [scriptMetadata_of_ne_nil hf, if_neg hf, Json.read?_text (Json.proper_ofList hproper),
      Json.printed_obj]
    refine ⟨_, rfl, ?_⟩
    rw [Fields.get?_mapValues, Fields.get?_ofList_concat, Option.map_some, Json.printed_arr,
      List.map_map]
    rfl

end Metadata

end StoryFlow
