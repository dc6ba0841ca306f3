import StoryFlow.Native
import StoryFlow.Proofs.Project.Stored

/-! # Nodes that are written and read again

A node is decoded from the data that is written for it as it was from its own data, up to the sign
of zero. Dialogues are the one case in which the data change: the list of responses is written
anew, each with its assignments as a list, and what is written once is written the same again.
-/

namespace StoryFlow

variable {fs : Fields} {key k : String} {v : Json} {type : String} {data : Fields}

/-! ## Decoded fields -/

/-- A response with its decoded fields alone, and zeros without a sign. -/
def Response.decoded (r : Response) : Response :=
  { r with
    condition := r.condition.map .unsigned
    assignments := r.assignments.map .unsigned
    raw := [] }

def Body.decoded : Body → Body
  | .dialogue d =>
    .dialogue { d with
      condition := d.condition.map .unsigned
      responses := d.responses.map Response.decoded }
  | .branching b => .branching { b with condition := b.condition.map .unsigned }
  | .instruction assignments => .instruction (assignments.map .unsigned)
  | body => body

/-- A node with zeros without a sign, and without the raw data of a dialogue. -/
def Node.decoded (n : Node) : Node :=
  { n with
    data := if n.body.kind = "dialogue" then [] else n.data.mapValues .unsigned
    position := n.position.map fun p => (p.1.unsigned, p.2.unsigned)
    body := n.body.decoded }

/-! ## Decoding without the sign of zero -/

@[simp] theorem Fields.textOf_mapValues :
    (fs.mapValues Json.unsigned).textOf key = fs.textOf key := by
  rw [textOf, textOf, get?_mapValues]
  cases fs.get? key with
  | none => rfl
  | some j => cases j <;> simp

theorem Fields.textOf_set_of_ne (h : key ≠ k) : (set fs k v).textOf key = fs.textOf key := by
  rw [textOf, textOf, get?_set_of_ne h]

@[simp] theorem Fields.either_mapValues {first second : String} :
    (fs.mapValues Json.unsigned).either first second =
      (fs.either first second).map Json.unsigned := by
  rw [either, either, get?_mapValues, get?_mapValues]
  cases fs.get? first with
  | none => rfl
  | some j => cases j <;> simp

theorem assignmentsOf_unsigned (stored : Option Json) :
    (assignmentsOf (stored.map Json.unsigned)).map Json.unsigned =
      (assignmentsOf stored).map Json.unsigned := by
  cases stored with
  | none => rfl
  | some j =>
    cases j with
    | arr items => simp [assignmentsOf]
    | _ => simp [assignmentsOf]

theorem objectsOf_unsigned (stored : Option Json) :
    objectsOf (stored.map Json.unsigned) =
      (objectsOf stored).map fun p => (p.1.mapValues Json.unsigned, p.2) := by
  have hfields (j : Json) :
      j.unsigned.fields? = j.fields?.map (Fields.mapValues Json.unsigned) := by
    cases j <;> simp [Json.fields?]
  cases stored with
  | none => rfl
  | some j =>
    cases j with
    | arr items =>
      simp [objectsOf, Json.items?, List.zipIdx_map, List.filterMap_map, List.map_filterMap,
        Function.comp_def, hfields]
    | _ => simp [objectsOf, Json.items?]

theorem Response.decoded_ofFields_unsigned (i : Nat) :
    (ofFields i (fs.mapValues Json.unsigned)).decoded = (ofFields i fs).decoded := by
  simp [ofFields, decoded, assignmentsOf_unsigned]

theorem Body.decoded_ofData_unsigned :
    (ofData type (data.mapValues Json.unsigned)).decoded = (ofData type data).decoded := by
  unfold Body.ofData
  split <;> simp [decoded, objectsOf_unsigned, Response.decoded_ofFields_unsigned, Case.ofFields,
    assignmentsOf_unsigned]

theorem Body.ofData_dialogue (data : Fields) :
    ofData "dialogue" data = .dialogue {
      text := (data.textOf "text").getD ""
      speaker := data.textOf "speaker_sheet_id"
      stageDirections := data.textOf "stage_directions"
      menuText := data.textOf "menu_text"
      technicalId := data.textOf "technical_id"
      condition := data.get? "condition"
      responses :=
        (objectsOf (data.get? "responses")).map fun (fs, i) => Response.ofFields i fs } :=
  rfl

theorem Body.kind_ofData_eq_dialogue :
    (ofData type data).kind = "dialogue" ↔ type = "dialogue" := by
  unfold Body.ofData
  split <;> simp_all [kind]

/-! ## Responses that are written anew -/

/-- The stored list of responses holds objects only. -/
def Fields.ResponsesAreObjects (data : Fields) : Prop :=
  ∀ j ∈ ((data.get? "responses").bind Json.items?).getD [], j.fields?.isSome

instance (data : Fields) : Decidable data.ResponsesAreObjects :=
  inferInstanceAs (Decidable (∀ j ∈ _, _))

/-- The fields of a response with its assignments as a list. -/
def Response.rewritten (fs : Fields) : Fields :=
  fs.set "instruction_assignments"
    (.arr (assignmentsOf (fs.either "instruction_assignments" "instruction")))

theorem Response.ofFields_rewritten (i : Nat) :
    ofFields i ((rewritten fs).mapValues Json.unsigned) =
      { ofFields i fs with
        condition := (ofFields i fs).condition.map .unsigned
        assignments := (ofFields i fs).assignments.map .unsigned
        raw := (rewritten fs).mapValues .unsigned } := by
  simp [ofFields, rewritten, Fields.textOf_set_of_ne, Fields.get?_set_of_ne, Fields.either,
    Fields.get?_set_self, assignmentsOf]

/-- What is written for a response is written for it again after it was read. -/
theorem Response.rewritten_rewritten :
    rewritten ((rewritten fs).mapValues Json.unsigned) =
      (rewritten fs).mapValues Json.unsigned := by
  have hread : assignmentsOf (((rewritten fs).mapValues Json.unsigned).either
      "instruction_assignments" "instruction") =
        (assignmentsOf (fs.either "instruction_assignments" "instruction")).map .unsigned := by
    simp [rewritten, Fields.either, Fields.get?_set_self, assignmentsOf]
  rw [rewritten, hread, ← Json.unsigned_arr]
  conv_lhs => rw [rewritten]
  rw [Fields.set_mapValues, Fields.set_set, ← rewritten]

/-- The data of a dialogue with its responses written anew. -/
def Dialogue.rewritten (data : Fields) (raws : List Fields) : Fields :=
  data.set "responses" (.arr (raws.map fun fs => .obj (Response.rewritten fs)))

theorem objectsOf_eq_zipIdx {stored : Option Json} {raws : List Fields}
    (h : (stored.bind Json.items?).getD [] = raws.map .obj) : objectsOf stored = raws.zipIdx := by
  rw [objectsOf, h, List.zipIdx_map, List.filterMap_map]
  simp [Function.comp_def, Json.fields?]

theorem exists_eq_map_obj {items : List Json} (h : ∀ j ∈ items, j.fields?.isSome) :
    ∃ raws : List Fields, items = raws.map .obj := by
  induction items with
  | nil => exact ⟨[], rfl⟩
  | cons j items ih =>
    obtain ⟨raws, hraws⟩ := ih (List.forall_mem_of_forall_mem_cons h)
    have hj := h j List.mem_cons_self
    cases j with
    | obj fs => exact ⟨fs :: raws, by rw [hraws, List.map_cons]⟩
    | _ => exact nomatch hj

theorem Fields.ResponsesAreObjects.exists_objectsOf (h : data.ResponsesAreObjects) :
    ∃ raws : List Fields, objectsOf (data.get? "responses") = raws.zipIdx := by
  obtain ⟨raws, hraws⟩ := exists_eq_map_obj h
  exact ⟨raws, objectsOf_eq_zipIdx hraws⟩

theorem objectsOf_rewritten (raws : List Fields) :
    objectsOf (((Dialogue.rewritten data raws).mapValues Json.unsigned).get? "responses") =
      (raws.map fun fs => (Response.rewritten fs).mapValues Json.unsigned).zipIdx := by
  refine objectsOf_eq_zipIdx ?_
  simp [Dialogue.rewritten, Fields.get?_set_self, Json.items?, Function.comp_def]

/-! ## Written data -/

theorem Native.nodeData_of_ne (n : Node) (h : n.body.kind ≠ "dialogue") : nodeData n = n.data := by
  rw [nodeData]
  split
  · rename_i d hd
    exact absurd (by rw [hd]; rfl) h
  · rfl

theorem Native.nodeData_dialogue {n : Node} {raws : List Fields}
    (hbody : n.body = Body.ofData "dialogue" n.data)
    (h : objectsOf (n.data.get? "responses") = raws.zipIdx) :
    nodeData n = Dialogue.rewritten n.data raws := by
  have hmap : raws.zipIdx.map (fun p => Json.obj (Response.rewritten p.1)) =
      raws.map fun fs => Json.obj (Response.rewritten fs) := by
    conv_rhs => rw [← List.zipIdx_map_fst 0 raws, List.map_map]
    rfl
  simp only [nodeData, hbody, Body.ofData_dialogue, h, List.map_map, Dialogue.rewritten, ← hmap]
  rfl

/-- What is written for a dialogue is written for it again after it was read. -/
theorem Dialogue.rewritten_rewritten (raws : List Fields) :
    rewritten ((rewritten data raws).mapValues Json.unsigned)
        (raws.map fun fs => (Response.rewritten fs).mapValues Json.unsigned) =
      (rewritten data raws).mapValues Json.unsigned := by
  have hresponses : (raws.map fun fs => (Response.rewritten fs).mapValues Json.unsigned).map
      (fun fs => Json.obj (Response.rewritten fs)) =
        (raws.map fun fs => Json.obj (Response.rewritten fs)).map .unsigned := by
    simp [Function.comp_def, Response.rewritten_rewritten]
  rw [rewritten, hresponses, ← Json.unsigned_arr]
  conv_lhs => rw [rewritten]
  rw [Fields.set_mapValues, Fields.set_set, ← rewritten]

theorem Body.decoded_ofData_rewritten {raws : List Fields}
    (h : objectsOf (data.get? "responses") = raws.zipIdx) :
    (ofData "dialogue" ((Dialogue.rewritten data raws).mapValues Json.unsigned)).decoded =
      (ofData "dialogue" data).decoded := by
  have htext {key : String} (hkey : key ≠ "responses") :
      (Dialogue.rewritten data raws).textOf key = data.textOf key :=
    Fields.textOf_set_of_ne hkey
  have hcondition : (Dialogue.rewritten data raws).get? "condition" = data.get? "condition" :=
    Fields.get?_set_of_ne (by decide)
  have hresponse (i : Nat) (fs : Fields) :
      (Response.ofFields i ((Response.rewritten fs).mapValues Json.unsigned)).decoded =
        (Response.ofFields i fs).decoded := by
    simp [Response.ofFields_rewritten, Response.decoded]
  simp only [ofData_dialogue, decoded, objectsOf_rewritten, h]
  simp [htext, hcondition, List.zipIdx_map, hresponse]

end StoryFlow
