import StoryFlow.Proofs.Native.Document
import StoryFlow.Proofs.Native.Reread

/-! # The native export is read again

The native text of a project reads as a document, and the project information, the sheets and the
flows of that document read as a project with the same flows and the same variables, whose sheets
and flows are written as the same text again.
-/

namespace StoryFlow

theorem Fields.get?_append (fs gs : Fields) (key : String) :
    get? (fs ++ gs) key = (fs.get? key).or (gs.get? key) :=
  List.lookup_append

namespace Native

/-- The parts of a native document that a project is read from. -/
def members (doc : Fields) : Json :=
  .obj (["project", "sheets", "flows"].filterMap fun key => (doc.get? key).map (Prod.mk key))

/-- The text of a section as it stands in the printed document, nothing if it is left out. -/
def sectionChars (o : Options) (p : Project) (key : String) : List Char :=
  ((sections o p).get? key).elim []
    (if o.prettyPrint then Json.prettyChars 1 else Json.compactChars)

theorem get?_ite (c : Bool) (k key : String) (v : Json) :
    Fields.get? (if c then [(k, v)] else []) key = if c ∧ key = k then some v else none := by
  cases c <;> simp [Fields.get?_cons]

theorem get?_assets (o : Options) (p : Project) {key : String} (h : key ≠ "assets") :
    Fields.get? (o.assets.toList.map fun mode => ("assets", Json.obj
      [("mode", .str mode.name), ("items", .arr (p.assets.map Asset.toJson))])) key = none := by
  cases o.assets <;> simp [Fields.get?_cons, h]

theorem get?_sections_sheets (o : Options) (p : Project) :
    (sections o p).get? "sheets" =
      if o.includes .sheets then some (.arr (p.sheets.map sheet)) else none := by
  simp [sections, Fields.get?_append, get?_ite, get?_assets]

theorem get?_sections_flows (o : Options) (p : Project) :
    (sections o p).get? "flows" =
      if o.includes .flows then some (.arr (p.flows.map flow)) else none := by
  simp [sections, Fields.get?_append, get?_ite, get?_assets]

/-- The fields of the native document. -/
def documentFields (o : Options) (p : Project) : Fields :=
  [("format", .str "narrative_export"), ("format_version", .str formatVersion),
    ("export_version", .str o.version), ("exported_at", .str o.exportedAt),
    ("project", info p.info)] ++ sections o p ++
    [("metadata", .obj [("statistics", statistics p)])]

theorem document_eq (o : Options) (p : Project) : document o p = .obj (documentFields o p) := rfl

/-- An included section stands in the exported text behind its key. -/
theorem sectionChars_infix {o : Options} {p : Project} {key : String} {v : Json}
    (h : (sections o p).get? key = some v) :
    Json.quoted key ++ ':' :: ((if o.prettyPrint then [' '] else []) ++ sectionChars o p key) <:+:
      ((document o p).text o.prettyPrint).toList := by
  obtain ⟨before, after, hsections, -⟩ := List.lookup_eq_some_iff.mp h
  have hmem : (key, v) ∈ documentFields o p := by simp [documentFields, hsections]
  rw [sectionChars, h, Option.elim_some, document_eq]
  cases o.prettyPrint
  · have hinfix := Json.Layout.compact.infix_chars_obj 0 hmem
    rw [Json.Layout.chars_compact, Json.Layout.chars_compact] at hinfix
    simpa [Json.text, Json.compact, Json.Layout.compact] using hinfix
  · have hinfix := Json.Layout.pretty.infix_chars_obj 0 hmem
    rw [Json.Layout.chars_pretty, Json.Layout.chars_pretty] at hinfix
    simpa [Json.text, Json.pretty, Json.Layout.pretty] using hinfix

/-- What a project is read from, as it stands in the document that its native text spells. -/
theorem members_printed {o : Options} {p : Project} (h : p.Stored)
    (ha : ∀ f ∈ p.flows, ∀ n ∈ f.nodes, n.AssignmentsFinite)
    (hsheets : o.includes .sheets) (hflows : o.includes .flows) :
    members ((documentFields o p).mapValues Json.printed) =
      .obj [("project", (info p.info).unsigned),
        ("sheets", (Json.arr (p.sheets.map sheet)).unsigned),
        ("flows", (Json.arr (p.flows.map flow)).unsigned)] := by
  have hinfo := Json.printed_eq_unsigned (ProjectInfo.regular_info h.settings).finite
  have hsheet : (Json.arr (p.sheets.map sheet)).Finite :=
    .arr (List.forall_mem_map.mpr fun s hs => (h.sheets s hs).regular_sheet.finite)
  have hflow : (Json.arr (p.flows.map flow)).Finite :=
    .arr (List.forall_mem_map.mpr fun f hf => ((h.flows f hf).regular_flow (ha f hf)).finite)
  simp only [members, documentFields, Fields.get?_mapValues, List.filterMap_cons,
    List.filterMap_nil, Fields.get?_append, Fields.get?_cons, get?_sections_sheets,
    get?_sections_flows, if_pos hsheets, if_pos hflows]
  simp [hinfo, Json.printed_eq_unsigned hsheet, Json.printed_eq_unsigned hflow]

/-- The project that is read from the native document of a project. -/
def reread (p : Project) : Project where
  info := p.info.reread
  sheets := p.sheets.map Sheet.reread
  flows := p.flows.map Flow.reread
  scenes := []
  screenplays := []
  localization := .empty
  assets := []

theorem read_members {p : Project} (h : p.Stored) :
    Project.read (some (.obj [("project", (info p.info).unsigned),
        ("sheets", (Json.arr (p.sheets.map sheet)).unsigned),
        ("flows", (Json.arr (p.flows.map flow)).unsigned)])) = .valid (reread p) := by
  have hinfo := ProjectInfo.read_info h.settings
  have hsheets := Reader.list_map fun s hs => (h.sheets s hs).read_sheet
  have hflows := Reader.list_map fun f hf => (h.flows f hf).read_flow
  have hlist {α : Type} (r : Reader α) : Reader.list r none = .valid [] := rfl
  have hdefault {α : Type} (d : α) (r : Reader α) : Reader.withDefault d r none = .valid d := rfl
  simp [Project.read, Reader.object, Reader.field, Fields.get?_cons, Function.comp_def, hinfo,
    hsheets, hflows, hlist, hdefault, reread]

theorem arr_sheets_reread {p : Project} (h : p.Stored) :
    Json.arr ((p.sheets.map Sheet.reread).map sheet) =
      (Json.arr (p.sheets.map sheet)).unsigned := by
  rw [Json.unsigned_arr, List.map_map, List.map_map]
  exact congrArg _ (List.map_congr_left fun s hs => (h.sheets s hs).sheet_reread)

theorem arr_flows_reread {p : Project} (h : p.Stored)
    (hr : ∀ f ∈ p.flows, ∀ n ∈ f.nodes, n.ResponsesAreObjects) :
    Json.arr ((p.flows.map Flow.reread).map flow) = (Json.arr (p.flows.map flow)).unsigned := by
  rw [Json.unsigned_arr, List.map_map, List.map_map]
  exact congrArg _ (List.map_congr_left fun f hf => (h.flows f hf).flow_reread (hr f hf))

/-- The sections that are read are written as the text that they were read from. -/
theorem sectionChars_reread (o : Options) {p : Project} (h : p.Stored)
    (hr : ∀ f ∈ p.flows, ∀ n ∈ f.nodes, n.ResponsesAreObjects) :
    sectionChars o (reread p) "sheets" = sectionChars o p "sheets" ∧
      sectionChars o (reread p) "flows" = sectionChars o p "flows" := by
  have hchars (j : Json) :
      (if o.prettyPrint then Json.prettyChars 1 else Json.compactChars) j.unsigned =
        (if o.prettyPrint then Json.prettyChars 1 else Json.compactChars) j := by
    cases o.prettyPrint
    · simpa [Json.Layout.chars_compact] using Json.Layout.chars_unsigned (l := .compact) 1 j
    · simpa [Json.Layout.chars_pretty] using Json.Layout.chars_unsigned (l := .pretty) 1 j
  have hsheets := arr_sheets_reread h
  have hflows := arr_flows_reread h hr
  constructor
  · simp only [sectionChars, get?_sections_sheets, reread, hsheets]
    split
    · exact hchars _
    · rfl
  · simp only [sectionChars, get?_sections_flows, reread, hflows]
    split
    · exact hchars _
    · rfl

/-- The native export of a parsed project reads as a project with the same flows and variables,
and these are exported as the same text again. -/
theorem output_reread {stored : Json} {p : Project} (o : Options)
    (hproper : stored.Proper) (hfinite : stored.Finite)
    (hread : Project.read (some stored) = .valid p)
    (hresponses : ∀ f ∈ p.flows, ∀ n ∈ f.nodes, n.ResponsesAreObjects)
    (hassignments : ∀ f ∈ p.flows, ∀ n ∈ f.nodes, n.AssignmentsFinite)
    (hsheets : o.includes .sheets) (hflows : o.includes .flows) :
    ∃ text doc q, (output o p).value = .text text ∧ Json.read? text = some (.obj doc) ∧
      Project.read (some (members doc)) = .valid q ∧
      q.flows.map Flow.decoded = p.flows.map Flow.decoded ∧
      (variablesOf q.sheets).map Variable.withoutBlock =
        (variablesOf p.sheets).map Variable.withoutBlock ∧
      ∀ o', sectionChars o' q "sheets" = sectionChars o' p "sheets" ∧
        sectionChars o' q "flows" = sectionChars o' p "flows" := by
  have h : p.Stored :=
    Project.ensures_read _ _ (by simpa using hfinite.regular hproper) hread
  refine ⟨(document o p).text o.prettyPrint, (documentFields o p).mapValues Json.printed, reread p,
    rfl, ?_, ?_, ?_, ?_, fun o' => sectionChars_reread o' h hresponses⟩
  · rw [Json.read?_text (proper_document o h hassignments) o.prettyPrint, document_eq,
      Json.printed_obj]
  · rw [members_printed h hassignments hsheets hflows, read_members h]
  · rw [reread, List.map_map]
    exact List.map_congr_left fun f hf => (h.flows f hf).decoded_reread (hresponses f hf)
  · simp only [variablesOf, reread, List.flatMap_map, List.map_flatMap, Sheet.vars_reread]

/-! ## A project that is stored in different ways

Its numbers are zeros below zero, its table has no data, and its line has two answers that keep
their assignments in different ways, the first of them without an id. -/

def letterStored : Json :=
  .obj [("project", .obj [("id", .num (.ofNat 1)), ("name", .str "Letter")]),
    ("sheets", .arr [.obj [("id", .str "hero"), ("shortcut", .str "mc"), ("name", .str "Hero"),
      ("blocks", .arr [
        .obj [("id", .str "b1"), ("type", .str "number"), ("position", .num (.zero true)),
          ("config", .obj [("label", .str "Health")]),
          ("value", .obj [("number", .num (.zero true))])],
        .obj [("id", .str "b2"), ("type", .str "table")]])]]),
    ("flows", .arr [.obj [("id", .str "f"), ("name", .str "Letter"),
      ("nodes", .arr [.obj [("id", .str "in"), ("type", .str "entry")],
        .obj [("id", .str "ask"), ("type", .str "dialogue"), ("data", .obj [
          ("text", .str "Open it?"),
          ("responses", .arr [
            .obj [("text", .str "Yes"), ("instruction", .str "[7, true]")],
            .obj [("id", .str "no"), ("instruction_assignments", .arr [.null])]])])]]),
      ("connections", .arr [
        .obj [("source_node_id", .str "in"), ("target_node_id", .str "ask")]])]])]

def letter : Project where
  info := ⟨"1", "Letter", none, none, []⟩
  sheets := [⟨"hero", "mc", "Hero", none, none, none,
    [⟨"b1", "number", some (some (.zero true)), [("label", .str "Health")],
        [("number", .num (.zero true))], false, some "health", none⟩,
      ⟨"b2", "table", none, [], [], false, none, none⟩]⟩]
  flows := [⟨"f", none, "Letter", none, none, false, [],
    [⟨"in", "entry", [], none, .entry⟩,
      ⟨"ask", "dialogue", [("text", .str "Open it?"), ("responses", .arr [
          .obj [("text", .str "Yes"), ("instruction", .str "[7, true]")],
          .obj [("id", .str "no"), ("instruction_assignments", .arr [.null])]])], none,
        .dialogue ⟨"Open it?", none, none, none, none, none,
          [⟨"0", "Yes", none, none, [.num (.ofNat 7), .bool true],
              [("text", .str "Yes"), ("instruction", .str "[7, true]")]⟩,
            ⟨"no", "", none, none, [.null],
              [("id", .str "no"), ("instruction_assignments", .arr [.null])]⟩]⟩⟩],
    [⟨none, "in", "output", "ask", none, none⟩]⟩]
  scenes := []
  screenplays := []
  localization := .empty
  assets := []

def letterOptions : Options :=
  ⟨.native, "1.0", true, true, true, true, true, some .references, .all, .all, .all, .all, true,
    true, "2024-01-01T00:00:00Z"⟩

theorem letter_output_reread :
    Project.read (some letterStored) = .valid letter ∧
      ∃ text doc q, (output letterOptions letter).value = .text text ∧
        Json.read? text = some (.obj doc) ∧ Project.read (some (members doc)) = .valid q ∧
        q.flows.map Flow.decoded = letter.flows.map Flow.decoded ∧
        (variablesOf q.sheets).map Variable.withoutBlock =
          [("mc", "health", .number, .number (.zero false))] ∧
        ∀ o', sectionChars o' q "sheets" = sectionChars o' letter "sheets" ∧
          sectionChars o' q "flows" = sectionChars o' letter "flows" := by
  have hread : Project.read (some letterStored) = .valid letter := by decide +kernel
  have hvariables : (variablesOf letter.sheets).map Variable.withoutBlock =
      [("mc", "health", .number, .number (.zero false))] := by decide +kernel
  rw [← hvariables]
  exact ⟨hread, output_reread letterOptions (by decide +kernel) (by decide +kernel) hread
    (by decide +kernel) (by decide +kernel) rfl rfl⟩

end Native

end StoryFlow
