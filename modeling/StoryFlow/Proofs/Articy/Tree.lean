import StoryFlow.Articy
import StoryFlow.Proofs.Xml

/-! # The tree of an articy document

What a list of flows, nodes or responses is written as, element by element. No element of the tree
holds both texts and elements, so indentation changes its line breaks only.
-/

namespace StoryFlow.Articy

open Xml

variable {sheets : List Sheet}

/-- The fragment of a response to the dialogue with an id. -/
def responseTree (parent : String) (r : Response) : Xml :=
  element "DialogueFragment" [("Id", Guid.ofKey ("resp:" ++ r.id)), ("Speaker", ""),
    ("TechnicalName", "resp_" ++ r.id), ("Parent", parent)]
    (leaf "Text" (Markup.strip r.text) ::
      ((condition r.condition).value.toList.map (leaf "Condition") ++
        (script r.assignments).value.toList.map (leaf "Instruction")))

theorem responses_value (parent : String) (rs : List Response) :
    (responses parent rs).value = rs.map (responseTree parent) := by
  induction rs with
  | nil => rfl
  | cons r rs ih => exact congrArg (responseTree parent r :: ·) ih

theorem nodes_value (sheets : List Sheet) (ns : List Node) :
    (nodes sheets ns).value = ns.flatMap fun n => (node sheets n).value := by
  induction ns with
  | nil => rfl
  | cons n ns ih => exact congrArg ((node sheets n).value ++ ·) ih

theorem flows_value (sheets : List Sheet) (fs : List Flow) :
    (flows sheets fs).value = fs.map fun f => (flow sheets f).value := by
  induction fs with
  | nil => rfl
  | cons f fs ih => exact congrArg ((flow sheets f).value :: ·) ih

/-- The tree that is written for a project. -/
def written (o : Options) (p : Project) : Xml :=
  if o.prettyPrint then indent 0 (tree o p).value else (tree o p).value

section Unmixed

/-- Elements of which none holds both texts and elements. -/
def Containers (xs : List Xml) : Prop :=
  ∀ x ∈ xs, x.isElement ∧ x.Unmixed

variable {α : Type} {name s : String} {attributes : List (String × String)} {xs ys : List Xml}

@[simp] theorem containers_nil : Containers [] :=
  List.forall_mem_nil _

@[simp] theorem containers_element :
    Containers (element name attributes ys :: xs) ↔
      (element name attributes ys).Unmixed ∧ Containers xs := by
  simp [Containers, isElement]

@[simp] theorem containers_append : Containers (xs ++ ys) ↔ Containers xs ∧ Containers ys :=
  List.forall_mem_append

theorem containers_cons {x : Xml} : Containers (x :: xs) ↔ Containers [x] ∧ Containers xs := by
  rw [← containers_append, List.singleton_append]

theorem containers_map {f : α → Xml} (h : ∀ a, Containers [f a]) (l : List α) :
    Containers (l.map f) :=
  List.forall_mem_map.mpr fun a _ => h a _ List.mem_cons_self

theorem containers_flatMap {f : α → List Xml} (h : ∀ a, Containers (f a)) (l : List α) :
    Containers (l.flatMap f) := by
  intro x hx
  obtain ⟨a, -, hx⟩ := List.mem_flatMap.mp hx
  exact h a x hx

/-- An element is unmixed that holds elements alone, or one text. -/
theorem Containers.element (h : Containers xs) : (element name attributes xs).Unmixed :=
  .elements (fun x hx => (h x hx).1) fun x hx => (h x hx).2

@[simp] theorem unmixed_text : (element name attributes [text s]).Unmixed :=
  .texts (List.forall_mem_singleton.mpr rfl)

@[simp] theorem containers_leaf : Containers (leaf name s :: xs) ↔ Containers xs := by
  rw [leaf, containers_element, and_iff_right unmixed_text]

@[simp] theorem containers_leaves (texts : List String) : Containers (texts.map (leaf name)) :=
  containers_map (fun _ => by simp) texts

theorem containers_responses (parent : String) (rs : List Response) :
    Containers (responses parent rs).value := by
  rw [responses_value]
  exact containers_map (fun r => by simp [responseTree, Containers.element]) rs

theorem containers_node (sheets : List Sheet) (n : Node) : Containers (node sheets n).value := by
  rw [node.eq_def]
  cases n.body with
  | dialogue d => simp [bind, pure, Containers.element, containers_responses]
  | unknown => exact containers_nil
  | branching b | instruction assignments | hub h | jump j | entry | exit id | scene s | subflow s =>
    simp [bind, pure, Containers.element]

theorem containers_flow (sheets : List Sheet) (f : Flow) : Containers [(flow sheets f).value] := by
  have hnodes : Containers (nodes sheets f.nodes).value := by
    rw [nodes_value]
    exact containers_flatMap (containers_node sheets) f.nodes
  have hconnections : Containers (f.connections.map connection) :=
    containers_map (fun c => by simp [connection, Containers.element]) f.connections
  simp [flow, bind, pure, Containers.element, hnodes, hconnections]

theorem containers_globalVariables (vars : List Variable) :
    Containers [globalVariables vars] := by
  have hvariables : ∀ space (vs : List Variable), Containers (vs.map (variableTree space)) :=
    fun space => containers_map fun v => by simp [variableTree, Containers.element]
  rw [globalVariables, containers_element]
  refine ⟨Containers.element (containers_map (fun s => ?_) _), containers_nil⟩
  simp [Containers.element, hvariables]

theorem containers_entity (s : Sheet) : Containers [entity s] := by
  have hproperties : Containers (s.vars.map fun v =>
      element "Property" [("Name", v.name), ("Type", typeName v.type)] [text v.initial.write]) :=
    containers_map (fun v => by simp) s.vars
  simp [entity, Containers.element, hproperties]

theorem unmixed_tree (o : Options) (p : Project) : (tree o p).value.Unmixed := by
  have hentities : Containers (p.sheets.map entity) := containers_map containers_entity p.sheets
  have hflows : Containers (flows p.sheets p.flows).value := by
    rw [flows_value]
    exact containers_map (containers_flow p.sheets) p.flows
  have hparts : Containers [
      element "ExportSettings" [] [leaf "ExportVersion" "1.0", leaf "ExporterVersion" o.version],
      globalVariables (variablesOf p.sheets),
      element "Hierarchy" [] (p.sheets.map entity ++ (flows p.sheets p.flows).value)] := by
    rw [containers_element, containers_cons]
    simp [Containers.element, containers_globalVariables, hentities, hflows]
  simp [tree, bind, pure, Containers.element, hparts]

end Unmixed

/-- Pretty printing lays the tree out line by line and changes nothing else of it: every element
keeps its attributes and texts, the line breaks are left out again to give the plain tree, and no
other tree that is laid out does so. -/
theorem pretty_layout (o : Options) (p : Project) :
    let bare : Options := { o with prettyPrint := false }
    let spaced : Options := { o with prettyPrint := true }
    let plain := written bare p
    let pretty := written spaced p
    (output bare p).value = .text (document plain) ∧
    (output spaced p).value = .text (document pretty) ∧
    (output spaced p).notes = (output bare p).notes ∧
    LaidOut 0 pretty ∧ pretty.erase = plain ∧ plain.Unmixed ∧ pretty.tags = plain.tags ∧
    ∀ x, LaidOut 0 x → x.erase = plain → x = pretty := by
  intro bare spaced plain pretty
  have hunmixed : plain.Unmixed := unmixed_tree bare p
  have hpretty : pretty = indent 0 plain := rfl
  obtain ⟨hlaid, herase⟩ := hunmixed.eq_indent_iff.mp hpretty
  refine ⟨rfl, rfl, rfl, hlaid, herase, hunmixed, ?_, fun x hx hp => ?_⟩
  · rw [hpretty, tags_indent]
  · exact hunmixed.eq_indent_iff.mpr ⟨hx, hp⟩

end StoryFlow.Articy
