import StoryFlow.Project.Schema
import StoryFlow.Proofs.Json.Checked

/-! # What a parsed project is made of

A project that is read from a regular document holds free-form fields of regular documents, finite
numbers, references and names that are not empty, and nodes whose bodies are decoded from their
data.
-/

namespace StoryFlow

open Reader

structure Block.Stored (b : Block) : Prop where
  position : ∀ o ∈ b.position, ∀ x ∈ o, x.isFinite
  config : b.config.Stored
  value : b.value.Stored
  table : ∀ o ∈ b.table, ∀ fs ∈ o, fs.Stored
  name : Block.nameOf b.variableName b.config = b.variableName

structure Sheet.Stored (s : Sheet) : Prop where
  parentId : s.parentId ≠ some ""
  blocks : ∀ b ∈ s.blocks, b.Stored

structure Node.Stored (n : Node) : Prop where
  data : n.data.Stored
  position : ∀ p ∈ n.position, p.1.isFinite ∧ p.2.isFinite
  body : n.body = Body.ofData n.type n.data

structure Connection.Stored (c : Connection) : Prop where
  id : c.id ≠ some ""
  sourcePin : c.sourcePin ≠ ""

structure Flow.Stored (f : Flow) : Prop where
  parentId : f.parentId ≠ some ""
  settings : f.settings.Stored
  nodes : ∀ n ∈ f.nodes, n.Stored
  connections : ∀ c ∈ f.connections, c.Stored

structure Project.Stored (p : Project) : Prop where
  settings : p.info.settings.Stored
  sheets : ∀ s ∈ p.sheets, s.Stored
  flows : ∀ f ∈ p.flows, f.Stored
  scenes : ∀ e ∈ p.scenes, (Json.obj e.extra).Regular
  screenplays : ∀ e ∈ p.screenplays, (Json.obj e.extra).Regular
  assets : ∀ a ∈ p.assets, a.metadata.Stored

theorem given_given (s : Option String) : given (given s) = given s := by
  simp [given, Option.filter_filter]

theorem given_getD_ne_empty (s : Option String) : (given s).getD "output" ≠ "" := by
  cases h : given s with
  | none => decide
  | some t => simpa using (Option.filter_eq_some_iff.mp h).2

theorem Block.nameOf_nameOf (stored : Option String) (config : Fields) :
    nameOf (nameOf stored config) config = nameOf stored config := by
  simp only [nameOf]
  cases h : given stored with
  | some s =>
    have hs : given (some s) = some s := by rw [← h, given_given]
    simp [hs]
  | none =>
    split
    · rename_i label _
      cases hslug : given (some (Text.slugify label)) with
      | none => simp [given]
      | some s =>
        have hs : given (some s) = some s := by rw [← hslug, given_given]
        simp [hs]
    · simp [given]

theorem Block.ensures_read : Block.read.Ensures Block.Stored := by
  refine .object fun fs b hfs hb => ?_
  obtain ⟨_, table, hb₁, htable, rfl⟩ := Checked.seq_eq_valid.mp hb
  obtain ⟨_, name, hb₂, -, rfl⟩ := Checked.seq_eq_valid.mp hb₁
  obtain ⟨_, isConstant, hb₃, -, rfl⟩ := Checked.seq_eq_valid.mp hb₂
  obtain ⟨_, value, hb₄, hvalue, rfl⟩ := Checked.seq_eq_valid.mp hb₃
  obtain ⟨_, config, hb₅, hconfig, rfl⟩ := Checked.seq_eq_valid.mp hb₄
  obtain ⟨_, position, hb₆, hposition, rfl⟩ := Checked.seq_eq_valid.mp hb₅
  obtain ⟨_, type, hb₇, -, rfl⟩ := Checked.seq_eq_valid.mp hb₆
  obtain ⟨id, -, rfl⟩ := Checked.map_eq_valid.mp hb₇
  exact {
    position := ensures_number.maybe.field hfs hposition
    config := ensures_freeForm.field hfs hconfig
    value := ensures_freeForm.field hfs hvalue
    table := ensures_fields.maybe.field hfs htable
    name := Block.nameOf_nameOf name config }

theorem Sheet.ensures_read : Sheet.read.Ensures Sheet.Stored := by
  refine .object fun fs s hfs hs => ?_
  obtain ⟨_, blocks, hs₁, hblocks, rfl⟩ := Checked.seq_eq_valid.mp hs
  obtain ⟨_, parentId, hs₂, hparent, rfl⟩ := Checked.seq_eq_valid.mp hs₁
  obtain ⟨_, color, hs₃, -, rfl⟩ := Checked.seq_eq_valid.mp hs₂
  obtain ⟨_, description, hs₄, -, rfl⟩ := Checked.seq_eq_valid.mp hs₃
  obtain ⟨_, name, hs₅, -, rfl⟩ := Checked.seq_eq_valid.mp hs₄
  obtain ⟨_, shortcut, hs₆, -, rfl⟩ := Checked.seq_eq_valid.mp hs₅
  obtain ⟨id, -, rfl⟩ := Checked.map_eq_valid.mp hs₆
  exact {
    parentId := ensures_reference.field hfs hparent
    blocks := Block.ensures_read.list.field hfs hblocks }

theorem Node.ensures_read : Node.read.Ensures Node.Stored := by
  refine .object fun fs n hfs hn => ?_
  obtain ⟨_, y, hn₁, hy, rfl⟩ := Checked.seq_eq_valid.mp hn
  obtain ⟨_, x, hn₂, hx, rfl⟩ := Checked.seq_eq_valid.mp hn₁
  obtain ⟨_, data, hn₃, hdata, rfl⟩ := Checked.seq_eq_valid.mp hn₂
  obtain ⟨_, type, hn₄, -, rfl⟩ := Checked.seq_eq_valid.mp hn₃
  obtain ⟨id, -, rfl⟩ := Checked.map_eq_valid.mp hn₄
  refine ⟨ensures_freeForm.field hfs hdata, fun p hp => ?_, rfl⟩
  simp only [Node.ofStored, Option.mem_def, Option.bind_eq_some_iff, Option.map_eq_some_iff] at hp
  obtain ⟨a, ha, b, hb, rfl⟩ := hp
  exact ⟨ensures_number.nullable.field hfs hx a ha, ensures_number.nullable.field hfs hy b hb⟩

theorem Connection.ensures_read : Connection.read.Ensures Connection.Stored := by
  refine .object fun fs c hfs hc => ?_
  obtain ⟨_, label, hc₁, -, rfl⟩ := Checked.seq_eq_valid.mp hc
  obtain ⟨_, targetPin, hc₂, -, rfl⟩ := Checked.seq_eq_valid.mp hc₁
  obtain ⟨_, target, hc₃, -, rfl⟩ := Checked.seq_eq_valid.mp hc₂
  obtain ⟨_, pin, hc₄, -, rfl⟩ := Checked.seq_eq_valid.mp hc₃
  obtain ⟨_, source, hc₅, -, rfl⟩ := Checked.seq_eq_valid.mp hc₄
  obtain ⟨id, hid, rfl⟩ := Checked.map_eq_valid.mp hc₅
  exact ⟨ensures_reference.field hfs hid, given_getD_ne_empty pin⟩

theorem Flow.ensures_read : Flow.read.Ensures Flow.Stored := by
  refine .object fun fs f hfs hf => ?_
  obtain ⟨_, connections, hf₁, hconnections, rfl⟩ := Checked.seq_eq_valid.mp hf
  obtain ⟨_, nodes, hf₂, hnodes, rfl⟩ := Checked.seq_eq_valid.mp hf₁
  obtain ⟨_, settings, hf₃, hsettings, rfl⟩ := Checked.seq_eq_valid.mp hf₂
  obtain ⟨_, isMain, hf₄, -, rfl⟩ := Checked.seq_eq_valid.mp hf₃
  obtain ⟨_, parentId, hf₅, hparent, rfl⟩ := Checked.seq_eq_valid.mp hf₄
  obtain ⟨_, description, hf₆, -, rfl⟩ := Checked.seq_eq_valid.mp hf₅
  obtain ⟨_, name, hf₇, -, rfl⟩ := Checked.seq_eq_valid.mp hf₆
  obtain ⟨_, shortcut, hf₈, -, rfl⟩ := Checked.seq_eq_valid.mp hf₇
  obtain ⟨id, -, rfl⟩ := Checked.map_eq_valid.mp hf₈
  exact {
    parentId := ensures_reference.field hfs hparent
    settings := ensures_freeForm.field hfs hsettings
    nodes := Node.ensures_read.list.field hfs hnodes
    connections := Connection.ensures_read.list.field hfs hconnections }

theorem Entity.ensures_read : Entity.read.Ensures fun e => (Json.obj e.extra).Regular := by
  refine .object fun fs e hfs he => ?_
  obtain ⟨_, shortcut, he₁, -, rfl⟩ := Checked.seq_eq_valid.mp he
  obtain ⟨_, name, he₂, -, rfl⟩ := Checked.seq_eq_valid.mp he₁
  obtain ⟨id, -, rfl⟩ := Checked.map_eq_valid.mp he₂
  obtain ⟨hq, hmem⟩ := Json.Each.obj_iff.mp (stored_kept hfs).regular
  exact .obj (hq.filter _) fun f hf => hmem f (List.mem_of_mem_filter hf)

theorem Asset.ensures_read : Asset.read.Ensures fun a => a.metadata.Stored := by
  refine .object fun fs a hfs ha => ?_
  obtain ⟨_, metadata, ha₁, hmetadata, rfl⟩ := Checked.seq_eq_valid.mp ha
  obtain ⟨_, url, ha₂, -, rfl⟩ := Checked.seq_eq_valid.mp ha₁
  obtain ⟨_, key, ha₃, -, rfl⟩ := Checked.seq_eq_valid.mp ha₂
  obtain ⟨_, size, ha₄, -, rfl⟩ := Checked.seq_eq_valid.mp ha₃
  obtain ⟨_, contentType, ha₅, -, rfl⟩ := Checked.seq_eq_valid.mp ha₄
  obtain ⟨_, filename, ha₆, -, rfl⟩ := Checked.seq_eq_valid.mp ha₅
  obtain ⟨id, -, rfl⟩ := Checked.map_eq_valid.mp ha₆
  exact ensures_freeForm.field hfs hmetadata

theorem ProjectInfo.ensures_read : ProjectInfo.read.Ensures fun i => i.settings.Stored := by
  refine .object fun fs i hfs hi => ?_
  obtain ⟨_, settings, hi₁, hsettings, rfl⟩ := Checked.seq_eq_valid.mp hi
  obtain ⟨_, description, hi₂, -, rfl⟩ := Checked.seq_eq_valid.mp hi₁
  obtain ⟨_, slug, hi₃, -, rfl⟩ := Checked.seq_eq_valid.mp hi₂
  obtain ⟨_, name, hi₄, -, rfl⟩ := Checked.seq_eq_valid.mp hi₃
  obtain ⟨id, -, rfl⟩ := Checked.map_eq_valid.mp hi₄
  exact ensures_freeForm.field hfs hsettings

theorem Project.ensures_read : Project.read.Ensures Project.Stored := by
  refine .object fun fs p hfs hp => ?_
  obtain ⟨_, assets, hp₁, hassets, rfl⟩ := Checked.seq_eq_valid.mp hp
  obtain ⟨_, localization, hp₂, -, rfl⟩ := Checked.seq_eq_valid.mp hp₁
  obtain ⟨_, screenplays, hp₃, hscreenplays, rfl⟩ := Checked.seq_eq_valid.mp hp₂
  obtain ⟨_, scenes, hp₄, hscenes, rfl⟩ := Checked.seq_eq_valid.mp hp₃
  obtain ⟨_, flows, hp₅, hflows, rfl⟩ := Checked.seq_eq_valid.mp hp₄
  obtain ⟨_, sheets, hp₆, hsheets, rfl⟩ := Checked.seq_eq_valid.mp hp₅
  obtain ⟨info, hinfo, rfl⟩ := Checked.map_eq_valid.mp hp₆
  exact {
    settings := ProjectInfo.ensures_read.field hfs hinfo
    sheets := Sheet.ensures_read.list.field hfs hsheets
    flows := Flow.ensures_read.list.field hfs hflows
    scenes := Entity.ensures_read.list.field hfs hscenes
    screenplays := Entity.ensures_read.list.field hfs hscreenplays
    assets := Asset.ensures_read.list.field hfs hassets }

end StoryFlow
