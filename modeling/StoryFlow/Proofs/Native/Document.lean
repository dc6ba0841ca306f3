import StoryFlow.Proofs.Json.RoundTrip
import StoryFlow.Proofs.Native.Node

/-! # The native document

All objects of a native document have their fields in order, so that the document reads back as it
was written; the numbers of its sheets and flows are finite.
-/

namespace StoryFlow

open Json (Each)

/-! ## Sheets -/

theorem Block.Stored.regular_block {b : Block} (h : b.Stored) : (Native.block b).Regular := by
  have hposition : (Json.ofOption .num (b.position.bind fun x => x)).Regular :=
    .ofOption_num fun x hx => by
      obtain ⟨o, ho, hx⟩ := Option.bind_eq_some_iff.mp hx
      exact h.position o ho x hx
  have hkeys : Fields.Named ["id", "type", "position", "config", "value", "is_constant",
    "variable_name", "table_data"] := by decide
  by_cases ht : b.type = "table"
  · have htable : (Native.tableOf b).Regular := by
      rw [Native.tableOf.eq_def]
      split
      · rename_i fs hfs
        exact (h.table _ hfs fs rfl).regular
      · exact .obj (Fields.ordered_of_named (by decide)) (by simp [Each.arr_iff])
    refine .obj (Fields.ordered_of_named (by simpa [ht, Fields.keys] using hkeys)) ?_
    simp [ht, hposition, htable, h.config.regular, h.value.regular, Native.optional]
  · have hkeys := hkeys.sublist (List.dropLast_sublist _)
    refine .obj (Fields.ordered_of_named (by simpa [ht, Fields.keys] using hkeys)) ?_
    simp [ht, hposition, h.config.regular, h.value.regular, Native.optional]

theorem Sheet.Stored.regular_sheet {s : Sheet} (h : s.Stored) : (Native.sheet s).Regular := by
  have hblocks : (Json.arr (s.blocks.map Native.block)).Regular :=
    .arr (List.forall_mem_map.mpr fun b hb => (h.blocks b hb).regular_block)
  refine .obj (Fields.ordered_of_named ?_) (by simp [hblocks, Native.optional])
  simp only [Fields.keys, List.map]
  decide

/-! ## Flows -/

/-- The numbers of the assignments that the responses of a dialogue decode to are finite. -/
def Node.AssignmentsFinite (n : Node) : Prop :=
  ∀ r ∈ n.body.responses, ∀ a ∈ r.assignments, a.Finite

instance (n : Node) : Decidable n.AssignmentsFinite :=
  inferInstanceAs (Decidable (∀ r ∈ _, _))

theorem proper_assignmentsOf {stored : Option Json} (h : ∀ j ∈ stored, j.Proper) :
    ∀ a ∈ assignmentsOf stored, a.Proper := by
  rw [assignmentsOf.eq_def]
  split
  · exact Each.arr_iff.mp (h _ rfl)
  · rename_i s
    intro a ha
    rcases hread : Json.read? s with _ | j
    · simp [hread] at ha
    · cases j with
      | arr items =>
        rw [hread, Option.bind_some, Json.items?, Option.getD_some] at ha
        exact Each.arr_iff.mp (Json.proper_read? hread) a ha
      | _ => simp [hread, Json.items?] at ha
  · simp

theorem Response.regular_response {i : Nat} {fs : Fields} (h : (Json.obj fs).Regular)
    (ha : ∀ a ∈ (ofFields i fs).assignments, a.Finite) :
    (Native.response (ofFields i fs)).Regular := by
  refine h.set (.arr fun a hmem =>
    (ha a hmem).regular (proper_assignmentsOf (fun j hj => ?_) a hmem))
  rw [Option.mem_def, Fields.either.eq_def] at hj
  split at hj
  · exact Json.Regular.proper (h.get? hj)
  · exact Json.Regular.proper (h.get? hj)
  · rename_i v _ hv
    obtain rfl := Option.some.inj hj
    exact Json.Regular.proper (h.get? hv)

theorem mem_objectsOf {stored : Option Json} {fs : Fields} {i : Nat}
    (h : (fs, i) ∈ objectsOf stored) : ∃ items, stored = some (.arr items) ∧ .obj fs ∈ items := by
  obtain ⟨⟨j, k⟩, hj, hfs⟩ := List.mem_filterMap.mp h
  have hmem := List.fst_mem_of_mem_zipIdx hj
  cases stored with
  | none => exact nomatch hmem
  | some v =>
    cases v with
    | arr items =>
      refine ⟨items, rfl, ?_⟩
      cases j with
      | obj gs =>
        obtain ⟨rfl, rfl⟩ := Prod.mk.inj (Option.some.inj hfs)
        exact hmem
      | _ => exact nomatch hfs
    | _ => exact nomatch hmem

/-- Each response of a dialogue is decoded from an object of its data. -/
theorem Node.Stored.exists_ofFields {n : Node} (h : n.Stored) {d : Dialogue}
    (hd : n.body = .dialogue d) {r : Response} (hr : r ∈ d.responses) :
    ∃ i fs, r = Response.ofFields i fs ∧ (Json.obj fs).Regular := by
  have hbody := h.body.symm.trans hd
  have htype : n.type = "dialogue" := by
    rw [← Body.kind_ofData_eq_dialogue, hbody]
    rfl
  rw [htype, Body.ofData_dialogue] at hbody
  obtain rfl := Body.dialogue.inj hbody
  obtain ⟨⟨fs, i⟩, hmem, rfl⟩ := List.mem_map.mp hr
  obtain ⟨items, hitems, hobj⟩ := mem_objectsOf hmem
  exact ⟨i, fs, rfl, Each.arr_iff.mp (h.data.regular.get? hitems) _ hobj⟩

theorem Node.Stored.regular_nodeData {n : Node} (h : n.Stored) (ha : n.AssignmentsFinite) :
    (Json.obj (Native.nodeData n)).Regular := by
  rw [Native.nodeData]
  split
  · rename_i d hd
    refine h.data.regular.set (.arr (List.forall_mem_map.mpr fun r hr => ?_))
    obtain ⟨i, fs, rfl, hfs⟩ := h.exists_ofFields hd hr
    exact Response.regular_response hfs (ha _ (hd ▸ hr))
  · exact h.data.regular

theorem Node.Stored.regular_node {n : Node} (h : n.Stored) (ha : n.AssignmentsFinite) :
    (Native.node n).Regular := by
  have hdata := h.regular_nodeData ha
  have hposition : (Json.ofOption (fun p => .num p.1) n.position).Regular ∧
      (Json.ofOption (fun p => .num p.2) n.position).Regular := by
    rcases hp : n.position with _ | p
    · exact ⟨.null, .null⟩
    · exact ⟨.num (h.position p hp).1, .num (h.position p hp).2⟩
  refine .obj (Fields.ordered_of_named ?_) (by simp [hdata, hposition])
  simp only [Fields.keys, List.map]
  decide

theorem Connection.regular_connection (c : Connection) : (Native.connection c).Regular := by
  refine .obj (Fields.ordered_of_named ?_) (by simp [Native.optional])
  simp only [Fields.keys, List.map]
  decide

theorem Flow.Stored.regular_flow {f : Flow} (h : f.Stored)
    (ha : ∀ n ∈ f.nodes, n.AssignmentsFinite) : (Native.flow f).Regular := by
  have hnodes : (Json.arr (f.nodes.map Native.node)).Regular :=
    .arr (List.forall_mem_map.mpr fun n hn => (h.nodes n hn).regular_node (ha n hn))
  have hconnections : (Json.arr (f.connections.map Native.connection)).Regular :=
    .arr (List.forall_mem_map.mpr fun c _ => c.regular_connection)
  refine .obj (Fields.ordered_of_named ?_)
    (by simp [h.settings.regular, hnodes, hconnections, Native.optional])
  simp only [Fields.keys, List.map]
  decide

theorem ProjectInfo.regular_info {i : ProjectInfo} (h : i.settings.Stored) :
    (Native.info i).Regular := by
  refine .obj (Fields.ordered_of_named ?_) (by simp [h.regular, Native.optional])
  simp only [Fields.keys, List.map]
  decide

/-! ## The whole document -/

theorem Entity.proper_toJson {e : Entity} (h : (Json.obj e.extra).Regular) : e.toJson.Proper := by
  refine .obj (Fields.ordered_ofList _) fun f hf => ?_
  have hf := Fields.mem_ofList hf
  rw [List.mem_append] at hf
  rcases hf with hf | hf
  · simp only [List.mem_cons, List.not_mem_nil, or_false] at hf
    rcases hf with rfl | rfl | rfl <;> simp
  · exact (Each.obj_iff.mp (Json.Regular.proper h)).2 f hf

theorem Asset.proper_toJson {a : Asset} (h : a.metadata.Stored) : a.toJson.Proper := by
  refine .obj (Fields.ordered_of_named ?_) (by simp [Each.ofOption_num, h.regular.proper])
  simp only [Fields.keys, List.map]
  decide

namespace Native

theorem proper_localized (t : LocalizedText) : (localized t).Proper := by
  refine .obj (Fields.ordered_of_named ?_) (by simp [Each.ofOption_num, optional])
  simp only [Fields.keys, List.map]
  decide

theorem proper_textGroup {ts : List LocalizedText} {j : Json} (h : textGroup ts = some j) :
    j.Proper := by
  cases ts with
  | nil => exact nomatch h
  | cons t ts =>
    obtain rfl := Option.some.inj h
    have htable : (Json.obj (Fields.table ((t :: ts).map fun t =>
        (t.locale, localized t)))).Proper :=
      Json.proper_table (List.forall_mem_map.mpr fun t _ => proper_localized t)
    refine .obj (Fields.ordered_of_named ?_) (by simpa [optional] using htable)
    simp only [Fields.keys, List.map]
    decide

theorem proper_glossaryGroup {gs : List GlossaryEntry} {j : Json} (h : glossaryGroup gs = some j) :
    j.Proper := by
  cases gs with
  | nil => exact nomatch h
  | cons g gs =>
    obtain rfl := Option.some.inj h
    have htable : (Json.obj (Fields.table ((g :: gs).map fun g =>
        (g.targetLocale, optional g.targetTerm)))).Proper :=
      Json.proper_table (List.forall_mem_map.mpr fun g _ => Each.ofOption_str g.targetTerm)
    refine .obj (Fields.ordered_of_named ?_) (by simpa [optional] using htable)
    simp only [Fields.keys, List.map]
    decide

theorem proper_language (l : Language) : (language l).Proper := by
  refine .obj (Fields.ordered_of_named ?_) (by simp [optional])
  simp only [Fields.keys, List.map]
  decide

theorem proper_localization (l : Localization) : (localization l).Proper := by
  have hlanguages : (Json.arr (l.languages.map language)).Proper :=
    .arr (List.forall_mem_map.mpr fun l _ => proper_language l)
  have hstrings : (Json.arr ((Assoc.group sourceOf l.strings).filterMap fun g =>
      textGroup g.2)).Proper :=
    .arr fun j hj => by
      obtain ⟨g, -, hg⟩ := List.mem_filterMap.mp hj
      exact proper_textGroup hg
  have hglossary : (Json.arr ((Assoc.group termOf l.glossary).filterMap fun g =>
      glossaryGroup g.2)).Proper :=
    .arr fun j hj => by
      obtain ⟨g, -, hg⟩ := List.mem_filterMap.mp hj
      exact proper_glossaryGroup hg
  refine .obj (Fields.ordered_of_named ?_) (by simp [hlanguages, hstrings, hglossary])
  simp only [Fields.keys, List.map]
  decide

theorem proper_statistics (p : Project) : (statistics p).Proper := by
  refine .obj (Fields.ordered_of_named ?_) (by simp [Json.ofNat])
  simp only [Fields.keys, List.map]
  decide

theorem proper_assets (mode : AssetMode) {assets : List Asset}
    (h : ∀ a ∈ assets, a.metadata.Stored) :
    (Json.obj [("mode", .str mode.name), ("items", .arr (assets.map Asset.toJson))]).Proper := by
  have hitems : (Json.arr (assets.map Asset.toJson)).Proper :=
    .arr (List.forall_mem_map.mpr fun a ha => Asset.proper_toJson (h a ha))
  refine .obj (Fields.ordered_of_named ?_) (by simp [hitems])
  simp only [Fields.keys, List.map]
  decide

theorem keys_ite_sublist (c : Bool) (k : String) (v : Json) :
    ((if c then [(k, v)] else []).map Prod.fst).Sublist [k] := by
  cases c with
  | false => exact List.nil_sublist _
  | true => exact List.Sublist.refl _

/-- An export has some of the sections, in this order. -/
theorem keys_sections_sublist (o : Options) (p : Project) :
    (sections o p).keys.Sublist
      ["sheets", "flows", "scenes", "screenplays", "localization", "assets"] := by
  have hassets : ((o.assets.toList.map fun mode => ("assets",
      Json.obj [("mode", .str mode.name), ("items", .arr (p.assets.map Asset.toJson))])).map
        Prod.fst).Sublist ["assets"] := by
    cases o.assets with
    | none => exact List.nil_sublist _
    | some mode => exact List.Sublist.refl _
  simp only [sections, Fields.keys, List.map_append]
  exact (((((keys_ite_sublist _ "sheets" _).append (keys_ite_sublist _ "flows" _)).append
    (keys_ite_sublist _ "scenes" _)).append (keys_ite_sublist _ "screenplays" _)).append
    (keys_ite_sublist _ "localization" _)).append hassets

theorem proper_sections (o : Options) {p : Project} (h : p.Stored)
    (ha : ∀ f ∈ p.flows, ∀ n ∈ f.nodes, n.AssignmentsFinite) :
    ∀ f ∈ sections o p, f.2.Proper := by
  have hsheets : (Json.arr (p.sheets.map sheet)).Proper :=
    .arr (List.forall_mem_map.mpr fun s hs => (h.sheets s hs).regular_sheet.proper)
  have hflows : (Json.arr (p.flows.map flow)).Proper :=
    .arr (List.forall_mem_map.mpr fun f hf => ((h.flows f hf).regular_flow (ha f hf)).proper)
  have hscenes : (Json.arr (p.scenes.map Entity.toJson)).Proper :=
    .arr (List.forall_mem_map.mpr fun e he => Entity.proper_toJson (h.scenes e he))
  have hscreenplays : (Json.arr (p.screenplays.map Entity.toJson)).Proper :=
    .arr (List.forall_mem_map.mpr fun e he => Entity.proper_toJson (h.screenplays e he))
  have hite {c : Bool} {k : String} {v : Json} (hv : v.Proper) :
      ∀ f ∈ (if c then [(k, v)] else []), f.2.Proper := by
    cases c <;> simp [hv]
  have hassets : ∀ f ∈ o.assets.toList.map fun mode => ("assets", Json.obj
      [("mode", .str mode.name), ("items", .arr (p.assets.map Asset.toJson))]), f.2.Proper :=
    List.forall_mem_map.mpr fun mode _ => proper_assets mode h.assets
  simp only [sections, List.forall_mem_append]
  exact ⟨⟨⟨⟨⟨hite hsheets, hite hflows⟩, hite hscenes⟩, hite hscreenplays⟩,
    hite (proper_localization p.localization)⟩, hassets⟩

theorem proper_document (o : Options) {p : Project} (h : p.Stored)
    (ha : ∀ f ∈ p.flows, ∀ n ∈ f.nodes, n.AssignmentsFinite) : (document o p).Proper := by
  have hkeys := ((List.Sublist.refl ["format", "format_version", "export_version", "exported_at",
    "project"]).append (keys_sections_sublist o p)).append (List.Sublist.refl ["metadata"])
  refine .obj (Fields.ordered_of_named ?_) ?_
  · rw [Fields.keys, List.map_append, List.map_append]
    exact Fields.Named.sublist (by decide) hkeys
  · have hmetadata : (Json.obj [("statistics", statistics p)]).Proper :=
      .obj (List.pairwise_singleton _ _) (List.forall_mem_singleton.mpr (proper_statistics p))
    simp only [List.forall_mem_append]
    exact ⟨⟨by simp [(ProjectInfo.regular_info h.settings).proper], proper_sections o h ha⟩,
      List.forall_mem_singleton.mpr hmetadata⟩

end Native

end StoryFlow
