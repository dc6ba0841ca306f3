import StoryFlow.Variable
import StoryFlow.Proofs.Native.Node

/-! # Parts of a project that are written and read again

For each part of a project, the part that is read from what is written for it. Writing that part
again gives the same document, and its decoded fields are those of the first one.
-/

namespace StoryFlow

open Reader

theorem Fields.kept_mapValues_of_kept {fs : Fields} {f : Json → Json} (h : kept fs = fs) :
    kept (fs.mapValues f) = fs.mapValues f := by
  rw [kept_mapValues, h]

theorem Fields.kept_set {fs : Fields} {key : String} {v : Json} (h : kept fs = fs)
    (hkey : key ≠ lostKey) : kept (set fs key v) = set fs key v := by
  refine List.filter_eq_self.mpr fun f hf => ?_
  rcases mem_set hf with rfl | ⟨hf, -⟩
  · simpa using hkey
  · rw [← h, kept, List.mem_filter] at hf
    exact hf.2

/-! ## Nodes -/

/-- The node that is read from what is written for a node. -/
def Node.reread (n : Node) : Node :=
  .ofStored n.id n.type ((Native.nodeData n).mapValues .unsigned)
    (n.position.map (·.1.unsigned)) (n.position.map (·.2.unsigned))

namespace Node

variable {n : Node}

/-- The responses of a dialogue are objects, as all that is decoded of them requires. -/
def ResponsesAreObjects (n : Node) : Prop :=
  n.body.kind = "dialogue" → n.data.ResponsesAreObjects

instance (n : Node) : Decidable n.ResponsesAreObjects :=
  inferInstanceAs (Decidable (_ → _))

@[simp] theorem position_reread :
    n.reread.position = n.position.map fun p => (p.1.unsigned, p.2.unsigned) := by
  rcases hp : n.position with _ | ⟨x, y⟩ <;> simp [reread, ofStored, hp]

theorem Stored.kept_nodeData (h : n.Stored) :
    Fields.kept (Native.nodeData n) = Native.nodeData n := by
  rw [Native.nodeData]
  split
  · exact Fields.kept_set h.data.kept (by decide)
  · exact h.data.kept

theorem Stored.read_node (h : n.Stored) :
    Node.read (some (Native.node n).unsigned) = .valid n.reread := by
  have hkept := Fields.kept_mapValues_of_kept (f := Json.unsigned) h.kept_nodeData
  simp [Node.read, object, field, Native.node, Fields.get?_cons, hkept, reread]

/-- What is written for a node: the data of a dialogue with its responses written anew, and the
data themselves for all other nodes. -/
theorem Stored.nodeData_cases (h : n.Stored) (hr : n.ResponsesAreObjects) :
    (n.type ≠ "dialogue" ∧ n.body.kind ≠ "dialogue" ∧ Native.nodeData n = n.data) ∨
      (n.type = "dialogue" ∧ ∃ raws : List Fields,
        objectsOf (n.data.get? "responses") = raws.zipIdx ∧
          Native.nodeData n = Dialogue.rewritten n.data raws) := by
  have hbody := h.body
  by_cases htype : n.type = "dialogue"
  · have hkind : n.body.kind = "dialogue" := hbody ▸ Body.kind_ofData_eq_dialogue.mpr htype
    obtain ⟨raws, hraws⟩ := (hr hkind).exists_objectsOf
    exact .inr ⟨htype, raws, hraws, Native.nodeData_dialogue (htype ▸ hbody) hraws⟩
  · have hkind : n.body.kind ≠ "dialogue" := hbody ▸ mt Body.kind_ofData_eq_dialogue.mp htype
    exact .inl ⟨htype, hkind, Native.nodeData_of_ne n hkind⟩

/-- The data of a node decode to the same body after they were written and read. -/
theorem Stored.decoded_body (h : n.Stored) (hr : n.ResponsesAreObjects) :
    n.reread.body.decoded = n.body.decoded := by
  rw [h.body, reread, ofStored]
  rcases h.nodeData_cases hr with ⟨-, -, hdata⟩ | ⟨htype, raws, hraws, hdata⟩
  · rw [hdata, Body.decoded_ofData_unsigned]
  · rw [hdata, htype, Body.decoded_ofData_rewritten hraws]

theorem Stored.nodeData_reread (h : n.Stored) (hr : n.ResponsesAreObjects) :
    Native.nodeData n.reread = (Native.nodeData n).mapValues Json.unsigned := by
  rcases h.nodeData_cases hr with ⟨htype, -, -⟩ | ⟨htype, raws, hraws, hdata⟩
  · exact Native.nodeData_of_ne n.reread (mt Body.kind_ofData_eq_dialogue.mp htype)
  · have hread : n.reread.data = (Dialogue.rewritten n.data raws).mapValues Json.unsigned :=
      congrArg _ hdata
    have hbody : n.reread.body = Body.ofData "dialogue" n.reread.data :=
      congrArg (Body.ofData · n.reread.data) htype
    rw [Native.nodeData_dialogue hbody (hread ▸ objectsOf_rewritten raws), hread, hdata,
      Dialogue.rewritten_rewritten]

theorem Stored.decoded_reread (h : n.Stored) (hr : n.ResponsesAreObjects) :
    n.reread.decoded = n.decoded := by
  have hkind : n.reread.body.kind = "dialogue" ↔ n.body.kind = "dialogue" := by
    rw [h.body, Body.kind_ofData_eq_dialogue]
    exact Body.kind_ofData_eq_dialogue
  have hdata (hne : n.body.kind ≠ "dialogue") : n.reread.data = n.data.mapValues Json.unsigned :=
    congrArg _ (Native.nodeData_of_ne n hne)
  have hid : n.reread.id = n.id ∧ n.reread.type = n.type := ⟨rfl, rfl⟩
  rw [decoded, decoded, h.decoded_body hr, position_reread]
  by_cases hd : n.body.kind = "dialogue"
  · simp [hkind, hd, hid, Function.comp_def]
  · simp [hkind, hd, hid, Function.comp_def, hdata hd]

theorem Stored.node_reread (h : n.Stored) (hr : n.ResponsesAreObjects) :
    Native.node n.reread = (Native.node n).unsigned := by
  have hid : n.reread.id = n.id ∧ n.reread.type = n.type := ⟨rfl, rfl⟩
  rcases hp : n.position with _ | p <;>
    simp [Native.node, hp, hid, h.nodeData_reread hr, Json.ofOption, Fields.mapValues]

end Node

/-! ## Blocks and their variables -/

def Value.unsigned : Value → Value
  | number n => number n.unsigned
  | value => value

/-- A variable without the block that holds it, its value with zeros without a sign. -/
def Variable.withoutBlock (v : Variable) : String × String × VariableType × Value :=
  (v.sheet, v.name, v.type, v.initial.unsigned)

/-- The block that is read from what is written for a block. -/
def Block.reread (b : Block) : Block :=
  { b with
    position := some (b.position.bind (Option.map Number.unsigned))
    config := b.config.mapValues .unsigned
    value := b.value.mapValues .unsigned
    table := if b.type = "table" then some (Native.tableOf b).unsigned.fields? else none }

@[simp] theorem Value.unsigned_unsigned (v : Value) : v.unsigned.unsigned = v.unsigned := by
  cases v <;> simp [unsigned]

theorem Value.ofBlock_mapValues (type : String) (value : Fields) :
    ofBlock type (value.mapValues Json.unsigned) = (ofBlock type value).unsigned := by
  rw [ofBlock.eq_def, ofBlock.eq_def, Fields.get?_mapValues]
  rcases value.get? type with _ | _ | _ | n | _ | _ | _
  case some.num =>
    simp only [Option.map_some, Json.unsigned_num]
    split
    case h_1 h =>
      obtain rfl := Json.num.inj (Option.some.inj h)
      by_cases hn : n.isFinite <;> simp [hn, unsigned]
    all_goals simp_all [unsigned]
  all_goals
    simp
    split <;> simp_all [unsigned]

theorem Native.tableOf_of_some {b : Block} {fs : Fields} (h : b.table = some (some fs)) :
    tableOf b = .obj fs := by
  rw [tableOf, h]

namespace Block

variable {b : Block}

theorem nameOf_mapValues (stored : Option String) (config : Fields) :
    nameOf stored (config.mapValues Json.unsigned) = nameOf stored config := by
  rw [nameOf, nameOf, Fields.get?_mapValues]
  cases config.get? "label" with
  | none => rfl
  | some j => cases j <;> simp

theorem Stored.exists_tableOf (h : b.Stored) :
    ∃ fs : Fields, Native.tableOf b = .obj fs ∧ Fields.kept fs = fs := by
  rw [Native.tableOf.eq_def]
  split
  · rename_i fs hfs
    exact ⟨fs, rfl, (h.table _ hfs fs rfl).kept⟩
  · exact ⟨_, rfl, rfl⟩

theorem Stored.read_block (h : b.Stored) :
    Block.read (some (Native.block b).unsigned) = .valid b.reread := by
  have hconfig := Fields.kept_mapValues_of_kept (f := Json.unsigned) h.config.kept
  have hvalue := Fields.kept_mapValues_of_kept (f := Json.unsigned) h.value.kept
  obtain ⟨fs, htable, hfs⟩ := h.exists_tableOf
  have hkept := Fields.kept_mapValues_of_kept (f := Json.unsigned) hfs
  by_cases ht : b.type = "table"
  · simp [Block.read, object, field, Native.block, Native.optional, Fields.get?_cons, hconfig,
      hvalue, ht, htable, hkept, nameOf_mapValues, h.name, reread, Json.fields?]
  · simp [Block.read, object, field, Native.block, Native.optional, Fields.get?_cons, hconfig,
      hvalue, ht, nameOf_mapValues, h.name, reread]

theorem Stored.block_reread (h : b.Stored) : Native.block b.reread = (Native.block b).unsigned := by
  obtain ⟨fs, htable, -⟩ := h.exists_tableOf
  have hposition : Json.ofOption Json.num (b.reread.position.bind fun a => a) =
      (Json.ofOption Json.num (b.position.bind fun a => a)).unsigned := by
    rcases hp : b.position with _ | _ | x <;> simp [reread, hp, Json.ofOption]
  have hconst : b.reread.id = b.id ∧ b.reread.type = b.type ∧ b.reread.isConstant = b.isConstant ∧
    b.reread.variableName = b.variableName ∧ b.reread.config = b.config.mapValues .unsigned ∧
    b.reread.value = b.value.mapValues .unsigned := ⟨rfl, rfl, rfl, rfl, rfl, rfl⟩
  by_cases ht : b.type = "table"
  · have hread : Native.tableOf b.reread = (Native.tableOf b).unsigned := by
      rw [htable, Json.unsigned_obj]
      exact Native.tableOf_of_some (by simp [reread, ht, htable, Json.fields?])
    simp [Native.block, Native.optional, hconst, hposition, hread, ht, Fields.mapValues]
  · simp [Native.block, Native.optional, hconst, hposition, ht, Fields.mapValues]

theorem toVariable_reread (sheet : String) :
    (b.reread.toVariable sheet).map Variable.withoutBlock =
      (b.toVariable sheet).map Variable.withoutBlock := by
  have hblock : b.reread.isConstant = b.isConstant ∧ b.reread.hasNoValue = b.hasNoValue ∧
    b.reread.type = b.type ∧ b.reread.variableName = b.variableName ∧
    b.reread.value = b.value.mapValues .unsigned := ⟨rfl, rfl, rfl, rfl, rfl⟩
  simp only [toVariable, hblock, Value.ofBlock_mapValues]
  by_cases hnone : b.isConstant || b.hasNoValue
  · simp only [if_pos hnone]
  · simp only [if_neg hnone, Option.map_map, Function.comp_def, Variable.withoutBlock,
      Value.unsigned_unsigned]

end Block

/-! ## Sheets -/

/-- The sheet that is read from what is written for a sheet. -/
def Sheet.reread (s : Sheet) : Sheet :=
  { s with blocks := s.blocks.map Block.reread }

namespace Sheet

variable {s : Sheet}

theorem Stored.read_sheet (h : s.Stored) :
    Sheet.read (some (Native.sheet s).unsigned) = .valid s.reread := by
  have hblocks := list_map fun b hb => (h.blocks b hb).read_block
  have hparent := reference_ofOption h.parentId
  simp [Sheet.read, object, field, Native.sheet, Native.optional, Fields.get?_cons,
    Function.comp_def, hblocks, hparent, reread]

theorem Stored.sheet_reread (h : s.Stored) : Native.sheet s.reread = (Native.sheet s).unsigned := by
  have hblocks : (s.blocks.map Block.reread).map Native.block =
      s.blocks.map fun b => (Native.block b).unsigned := by
    rw [List.map_map]
    exact List.map_congr_left fun b hb => (h.blocks b hb).block_reread
  simp [Native.sheet, Native.optional, reread, hblocks, Fields.mapValues, Function.comp_def]

theorem vars_reread :
    s.reread.vars.map Variable.withoutBlock = s.vars.map Variable.withoutBlock := by
  simp only [vars, reread, List.filterMap_map, List.map_filterMap]
  exact List.filterMap_congr fun b _ => b.toVariable_reread s.shortcut

end Sheet

/-! ## Flows -/

theorem Connection.Stored.read_connection {c : Connection} (h : c.Stored) :
    Connection.read (some (Native.connection c).unsigned) = .valid c := by
  have hid := reference_ofOption h.id
  have hpin : given (some c.sourcePin) = some c.sourcePin := by simp [given, h.sourcePin]
  have htext (s : String) : text (some (.str s)) = .valid (some s) := rfl
  simp [Connection.read, object, field, Native.connection, Native.optional, Fields.get?_cons, hid,
    hpin, htext]

theorem Connection.unsigned_connection (c : Connection) :
    (Native.connection c).unsigned = Native.connection c := by
  simp [Native.connection, Native.optional, Fields.mapValues]

/-- A flow with the decoded fields of its nodes. -/
def Flow.decoded (f : Flow) : Flow :=
  { f with settings := f.settings.mapValues .unsigned, nodes := f.nodes.map Node.decoded }

/-- The flow that is read from what is written for a flow. -/
def Flow.reread (f : Flow) : Flow :=
  { f with settings := f.settings.mapValues .unsigned, nodes := f.nodes.map Node.reread }

namespace Flow

variable {f : Flow}

theorem Stored.read_flow (h : f.Stored) :
    Flow.read (some (Native.flow f).unsigned) = .valid f.reread := by
  have hsettings := Fields.kept_mapValues_of_kept (f := Json.unsigned) h.settings.kept
  have hnodes := list_map fun n hn => (h.nodes n hn).read_node
  have hconnections := list_map fun c hc => (h.connections c hc).read_connection
  have hparent := reference_ofOption h.parentId
  have hname (s : String) : withDefault "" string (some (.str s)) = .valid s := rfl
  simp [Flow.read, object, field, Native.flow, Native.optional, Fields.get?_cons, Function.comp_def,
    hsettings, hnodes, hconnections, hparent, hname, reread]

theorem Stored.flow_reread (h : f.Stored) (hr : ∀ n ∈ f.nodes, n.ResponsesAreObjects) :
    Native.flow f.reread = (Native.flow f).unsigned := by
  have hnodes : (f.nodes.map Node.reread).map Native.node =
      f.nodes.map fun n => (Native.node n).unsigned := by
    rw [List.map_map]
    exact List.map_congr_left fun n hn => (h.nodes n hn).node_reread (hr n hn)
  simp [Native.flow, Native.optional, reread, hnodes, Fields.mapValues, Function.comp_def,
    Connection.unsigned_connection]

theorem Stored.decoded_reread (h : f.Stored) (hr : ∀ n ∈ f.nodes, n.ResponsesAreObjects) :
    f.reread.decoded = f.decoded := by
  have hnodes : (f.nodes.map Node.reread).map Node.decoded = f.nodes.map Node.decoded := by
    rw [List.map_map]
    exact List.map_congr_left fun n hn => (h.nodes n hn).decoded_reread (hr n hn)
  simp [decoded, reread, hnodes]

end Flow

/-- The project information that is read from what is written for it. -/
def ProjectInfo.reread (i : ProjectInfo) : ProjectInfo :=
  { i with settings := i.settings.mapValues .unsigned }

theorem ProjectInfo.read_info {i : ProjectInfo} (h : i.settings.Stored) :
    ProjectInfo.read (some (Native.info i).unsigned) = .valid i.reread := by
  have hsettings := Fields.kept_mapValues_of_kept (f := Json.unsigned) h.kept
  simp [ProjectInfo.read, object, field, Native.info, Native.optional, Fields.get?_cons, hsettings,
    reread]

end StoryFlow
