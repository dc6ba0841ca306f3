import Mathlib.Data.List.Dedup
import Mathlib.Data.List.Nodup
import Mathlib.Data.List.Perm.Basic
import Mathlib.Data.Set.Function
import StoryFlow.Proofs.Articy.Tree

/-! # Ids of an articy document

Every project, sheet, flow, node, response and connection has an id of its own, the digest of a
key. The keys of two kinds of objects never agree. Those of sheets, flows and nodes differ when
their ids do, so the ids of a document are distinct exactly when no two responses and no two
connections have one key.
-/

namespace StoryFlow

namespace Xml

/-- The id among the attributes of an element. -/
def ownIds (attributes : List (String × String)) : List String :=
  (attributes.filter fun a => a.1 = "Id" ∨ a.1 = "Guid").map Prod.snd

mutual

/-- The ids of the elements of a tree, in the order of the document. -/
def ids : Xml → List String
  | text _ => []
  | element _ attributes children => ownIds attributes ++ childIds children

def childIds : List Xml → List String
  | [] => []
  | x :: xs => ids x ++ childIds xs

end

@[simp] theorem childIds_append (xs ys : List Xml) : childIds (xs ++ ys) = childIds xs ++ childIds ys := by
  induction xs with
  | nil => rfl
  | cons x xs ih => rw [List.cons_append, childIds, childIds, ih, List.append_assoc]

theorem childIds_flatMap {α : Type} (f : α → List Xml) (l : List α) :
    childIds (l.flatMap f) = l.flatMap fun a => childIds (f a) := by
  induction l with
  | nil => rfl
  | cons a l ih => rw [List.flatMap_cons, childIds_append, ih, List.flatMap_cons]

theorem childIds_map {α : Type} (f : α → Xml) (l : List α) :
    childIds (l.map f) = l.flatMap fun a => (f a).ids := by
  induction l with
  | nil => rfl
  | cons a l ih => rw [List.map_cons, childIds, ih, List.flatMap_cons]

@[simp] theorem childIds_nil : childIds [] = [] := rfl

@[simp] theorem childIds_cons (x : Xml) (xs : List Xml) :
    childIds (x :: xs) = x.ids ++ childIds xs := rfl

@[simp] theorem ids_text (s : String) : (text s).ids = [] := rfl

@[simp] theorem ids_element (name : String) (attributes : List (String × String))
    (children : List Xml) :
    (element name attributes children).ids = ownIds attributes ++ childIds children := by
  rw [ids]

@[simp] theorem ids_leaf (name s : String) : (leaf name s).ids = [] := rfl

/-- Elements with one id each. -/
theorem childIds_map_of {α : Type} {f : α → Xml} {key : α → String}
    (h : ∀ a, (f a).ids = [Guid.ofKey (key a)]) (l : List α) :
    childIds (l.map f) = (l.map key).map Guid.ofKey := by
  rw [childIds_map, List.map_map, List.map_eq_flatMap]
  exact List.flatMap_congr fun a _ => h a

@[simp] theorem childIds_map_leaf (name : String) (texts : List String) :
    childIds (texts.map (leaf name)) = [] := by
  simp [childIds_map]

mutual

/-- The line breaks that `indent` puts in have no ids. -/
theorem ids_indent (depth : Nat) : ∀ x : Xml, (indent depth x).ids = x.ids
  | text s => rfl
  | element name attributes children => by
    rw [indent]
    split
    · rw [ids, childIds_append, childIds_indentChildren depth children, ids]
      simp [lineBreak]
    · rfl

theorem childIds_indentChildren (depth : Nat) :
    ∀ xs : List Xml, childIds (indentChildren depth xs) = childIds xs
  | [] => rfl
  | x :: xs => by
    rw [indentChildren]
    split
    · simp [lineBreak, ids_indent (depth + 1) x, childIds_indentChildren depth xs]
    · rw [childIds, childIds, childIds_indentChildren depth xs]

end

end Xml

namespace Articy

open Xml

section Keys

variable {p : Project}

def responseKey (r : Response) : String := "resp:" ++ r.id

/-- The keys of a node and of its responses; none for an unknown kind. -/
def nodeKeys (n : Node) : List String :=
  (if n.body = .unknown then [] else [nodeKey n.id]) ++ n.body.responses.map responseKey

def sheetKey (s : Sheet) : String := "entity:" ++ s.id

def flowKey (f : Flow) : String := "flow:" ++ f.id

def flowKeys (f : Flow) : List String :=
  flowKey f :: (f.nodes.flatMap nodeKeys ++ f.connections.map connectionKey)

/-- The keys of all objects of a project, in the order of its document. -/
def keys (p : Project) : List String :=
  ("project:" ++ p.info.id) ::
    (p.sheets.map sheetKey ++ p.flows.flatMap flowKeys)

theorem ids_responses (parent : String) (rs : List Response) :
    childIds (responses parent rs).value = (rs.map responseKey).map Guid.ofKey := by
  rw [responses_value]
  exact childIds_map_of (fun r => by simp [responseTree, ownIds, responseKey]) rs

theorem ids_node (sheets : List Sheet) (n : Node) :
    childIds (node sheets n).value = (nodeKeys n).map Guid.ofKey := by
  rw [node.eq_def, nodeKeys]
  cases n.body with
  | dialogue d =>
    have hresponses := ids_responses (Guid.ofKey (nodeKey n.id)) d.responses
    rw [List.map_map] at hresponses
    simp [bind, pure, ownIds, Body.responses, hresponses]
  | unknown => rfl
  | branching b | instruction assignments | hub h | jump j | entry | exit id | scene s | subflow s =>
    simp [bind, pure, ownIds, Body.responses]

theorem ids_nodes (sheets : List Sheet) (ns : List Node) :
    childIds (nodes sheets ns).value = (ns.flatMap nodeKeys).map Guid.ofKey := by
  rw [nodes_value, childIds_flatMap, List.map_flatMap]
  exact List.flatMap_congr fun n _ => ids_node sheets n

theorem ids_flow (sheets : List Sheet) (f : Flow) :
    (flow sheets f).value.ids = (flowKeys f).map Guid.ofKey := by
  have hconnections : childIds (f.connections.map connection) =
      (f.connections.map connectionKey).map Guid.ofKey :=
    childIds_map_of (fun c => by simp [connection, ownIds]) f.connections
  rw [List.map_map] at hconnections
  simp [flow, bind, pure, ownIds, ids_nodes, hconnections, flowKeys, flowKey]

theorem ids_flows (sheets : List Sheet) (fs : List Flow) :
    childIds (flows sheets fs).value = (fs.flatMap flowKeys).map Guid.ofKey := by
  rw [flows_value, childIds_map, List.map_flatMap]
  exact List.flatMap_congr fun f _ => ids_flow sheets f

theorem ids_globalVariables (vars : List Variable) : (globalVariables vars).ids = [] := by
  have hvariables : ∀ space (vs : List Variable), childIds (vs.map (variableTree space)) = [] :=
    fun space vs => by simp [childIds_map, variableTree, ownIds]
  simp [globalVariables, ownIds, childIds_map, hvariables]

theorem ids_entity (s : Sheet) : (entity s).ids = [Guid.ofKey (sheetKey s)] := by
  have hproperties : childIds (s.vars.map fun v =>
      element "Property" [("Name", v.name), ("Type", typeName v.type)] [text v.initial.write]) =
        [] := by
    simp [childIds_map, ownIds]
  simp [entity, ownIds, hproperties, sheetKey]

theorem ids_tree (o : Options) (p : Project) :
    (tree o p).value.ids = (keys p).map Guid.ofKey := by
  simp [tree, bind, pure, ownIds, ids_globalVariables, ids_flows, keys,
    childIds_map_of ids_entity p.sheets]

end Keys

section Distinct

variable {p : Project}

/-- The responses of all dialogues of a project. -/
def answers (p : Project) : List Response :=
  (p.flows.flatMap Flow.nodes).flatMap fun n => n.body.responses

/-- The keys of a project by the kinds of their objects, with the first letter of each kind. -/
def families (p : Project) : List (Char × List String) :=
  let nodes := p.flows.flatMap Flow.nodes
  [('p', ["project:" ++ p.info.id]), ('e', p.sheets.map sheetKey), ('f', p.flows.map flowKey),
    ('n', (nodes.filter (·.body ≠ .unknown)).map fun n => nodeKey n.id),
    ('r', (answers p).map responseKey), ('c', (p.flows.flatMap Flow.connections).map connectionKey)]

theorem head?_of_mem_families : ∀ b ∈ families p, ∀ key ∈ b.2, key.toList.head? = some b.1 := by
  have happend : ∀ {c : Char} {lead : String}, lead.toList.head? = some c →
      ∀ s : String, (lead ++ s).toList.head? = some c := by
    intro c lead h s
    rw [String.toList_append, List.head?_append, h, Option.some_or]
  have hconnection : ∀ c : Connection, (connectionKey c).toList.head? = some 'c' := by
    intro c
    unfold connectionKey
    split
    · exact happend (by decide) _
    · simp only [String.append_assoc]
      exact happend (by decide) _
  simp only [families, List.forall_mem_cons, List.forall_mem_map, List.not_mem_nil, false_implies,
    implies_true, and_true]
  exact ⟨happend (by decide) _, fun _ _ => happend (by decide) _, fun _ _ => happend (by decide) _,
    fun _ _ => happend (by decide) _, fun _ _ => happend (by decide) _, fun _ _ => hconnection _⟩

/-- Keys of different kinds start with different letters. -/
theorem nodup_families_iff :
    ((families p).flatMap Prod.snd).Nodup ↔ ∀ b ∈ families p, b.2.Nodup := by
  rw [List.nodup_flatMap, and_iff_left_iff_imp]
  intro _
  have hletters : (families p).Pairwise fun a b => a.1 ≠ b.1 := by
    rw [← List.pairwise_map]
    exact show ['p', 'e', 'f', 'n', 'r', 'c'].Pairwise (· ≠ ·) by decide
  refine hletters.imp_of_mem fun {a b} ha hb hne key hka hkb => hne ?_
  have hsame := (head?_of_mem_families a ha key hka).symm.trans (head?_of_mem_families b hb key hkb)
  exact Option.some.inj hsame

theorem flatMap_nodeKeys_perm (ns : List Node) : (ns.flatMap nodeKeys).Perm
    (((ns.filter (·.body ≠ .unknown)).map fun n => nodeKey n.id) ++
      (ns.flatMap fun n => n.body.responses).map responseKey) := by
  have hown : (ns.flatMap fun n => if n.body = .unknown then [] else [nodeKey n.id]) =
      (ns.filter (·.body ≠ .unknown)).map fun n => nodeKey n.id := by
    induction ns with
    | nil => rfl
    | cons n ns ih => by_cases hn : n.body = .unknown <;> simp [hn, ih]
  rw [← hown, List.map_flatMap]
  exact (List.flatMap_append_perm ns _ _).symm

theorem flatMap_flowKeys_perm (fs : List Flow) : (fs.flatMap flowKeys).Perm
    (fs.map flowKey ++ ((fs.flatMap Flow.nodes).flatMap nodeKeys ++
      (fs.flatMap Flow.connections).map connectionKey)) := by
  rw [List.flatMap_assoc, List.map_flatMap]
  exact ((List.flatMap_append_perm fs _ _).append_left _ |>.trans
    (List.map_append_flatMap_perm fs flowKey _)).symm

theorem keys_perm (p : Project) : (keys p).Perm ((families p).flatMap Prod.snd) := by
  have hflows := flatMap_flowKeys_perm p.flows
  have hnodes := flatMap_nodeKeys_perm (p.flows.flatMap Flow.nodes)
  have hall := (hflows.trans ((hnodes.append_right _).append_left _)).append_left
    (p.sheets.map sheetKey)
  simpa [keys, families, answers, List.append_assoc] using hall.cons ("project:" ++ p.info.id)

theorem ids_written (o : Options) (p : Project) :
    (written o p).ids = (keys p).map Guid.ofKey := by
  unfold written
  split
  · rw [ids_indent, ids_tree]
  · exact ids_tree o p

/-- When digests tell the keys of a project apart, the ids of its document are distinct exactly
when no two responses share an id, not even in different dialogues, and no two connections share
a key. -/
theorem nodup_ids_iff (o : Options) (hsheets : (p.sheets.map Sheet.id).Nodup)
    (hflows : (p.flows.map Flow.id).Nodup)
    (hnodes : ((p.flows.flatMap Flow.nodes).map Node.id).Nodup)
    (hdigest : Set.InjOn Guid.ofKey {key | key ∈ keys p}) :
    (output o p).value = .text (document (written o p)) ∧
      ((written o p).ids.Nodup ↔ ((answers p).map Response.id).Nodup ∧
        ((p.flows.flatMap Flow.connections).map connectionKey).Nodup) := by
  have happend : ∀ {α : Type} (lead : String) (id : α → String) (l : List α),
      (l.map fun a => lead ++ id a).Nodup ↔ (l.map id).Nodup := by
    intro α lead id l
    rw [show (fun a => lead ++ id a) = (lead ++ ·) ∘ id from rfl, ← List.map_map]
    exact List.nodup_map_iff fun _ _ => (String.append_right_inj lead).mp
  have hsheet : (p.sheets.map sheetKey).Nodup := (happend "entity:" Sheet.id _).mpr hsheets
  have hflow : (p.flows.map flowKey).Nodup := (happend "flow:" Flow.id _).mpr hflows
  have hnode : (((p.flows.flatMap Flow.nodes).filter (·.body ≠ .unknown)).map
      fun n => nodeKey n.id).Nodup :=
    (happend "node:" Node.id _).mpr (hnodes.sublist (List.filter_sublist.map _))
  have hresponse : ((answers p).map responseKey).Nodup ↔ ((answers p).map Response.id).Nodup :=
    happend "resp:" Response.id _
  have hkeys : (keys p).Nodup ↔ ((answers p).map Response.id).Nodup ∧
      ((p.flows.flatMap Flow.connections).map connectionKey).Nodup := by
    rw [(keys_perm p).nodup_iff, nodup_families_iff, ← hresponse]
    simp only [families, List.forall_mem_cons, List.not_mem_nil, false_implies, implies_true,
      and_true, List.nodup_singleton, true_and, hsheet, hflow, hnode]
  refine ⟨rfl, ?_⟩
  rw [ids_written, ← hkeys]
  exact ⟨List.Nodup.of_map _, fun hn => hn.map_on fun a ha b hb => hdigest ha hb⟩

/-- Digests tell keys apart when they tell each from all others. -/
theorem injOn_keys {keys : List String} (h : (keys.dedup.map Guid.ofKey).Nodup) :
    Set.InjOn Guid.ofKey {key | key ∈ keys} := fun _ ha _ hb =>
  List.inj_on_of_nodup_map h (List.mem_dedup.mpr ha) (List.mem_dedup.mpr hb)

/-- A choice between two questions, with their stored responses. -/
def asking (first second : Json) (connections : List Connection) : Project where
  info := ⟨"1", "Answers", none, none, []⟩
  sheets := [⟨"1", "hero", "Hero", none, none, none, []⟩]
  flows := [⟨"1", some "first", "First", none, none, true, [],
    [.ofStored "ask" "dialogue" [("text", .str "Yes?"), ("responses", first)] none none,
      .ofStored "again" "dialogue" [("text", .str "Sure?"), ("responses", second)] none none],
    connections⟩]
  scenes := []
  screenplays := []
  localization := .empty
  assets := []

theorem asking_ids_differ :
    let p := asking (.arr [.obj [("id", .str "yes")]]) (.arr [.obj [("id", .str "sure")]])
      [⟨none, "ask", "response_yes", "again", none, none⟩,
        ⟨some "1", "again", "response_sure", "ask", none, none⟩]
    (p.sheets.map Sheet.id).Nodup ∧ (p.flows.map Flow.id).Nodup ∧
      ((p.flows.flatMap Flow.nodes).map Node.id).Nodup ∧
      Set.InjOn Guid.ofKey {key | key ∈ keys p} ∧ ∀ o : Options, (written o p).ids.Nodup := by
  intro p
  have hs : (p.sheets.map Sheet.id).Nodup := by decide
  have hf : (p.flows.map Flow.id).Nodup := by decide
  have hn : ((p.flows.flatMap Flow.nodes).map Node.id).Nodup := by decide
  have hd : Set.InjOn Guid.ofKey {key | key ∈ keys p} := injOn_keys (by decide +kernel)
  exact ⟨hs, hf, hn, hd, fun o => (nodup_ids_iff o hs hf hn hd).2.mpr (by decide +kernel)⟩

/-- Responses without ids have one key in both dialogues, and so have parallel connections. -/
theorem asking_ids_equal :
    let p := asking (.arr [.obj []]) (.arr [.obj []]) []
    let q := asking .null .null (List.replicate 2 ⟨none, "ask", "output", "again", none, none⟩)
    ((p.sheets.map Sheet.id).Nodup ∧ (p.flows.map Flow.id).Nodup ∧
      ((p.flows.flatMap Flow.nodes).map Node.id).Nodup ∧
      Set.InjOn Guid.ofKey {key | key ∈ keys p} ∧ ∀ o : Options, ¬ (written o p).ids.Nodup) ∧
    (q.sheets.map Sheet.id).Nodup ∧ (q.flows.map Flow.id).Nodup ∧
      ((q.flows.flatMap Flow.nodes).map Node.id).Nodup ∧
      Set.InjOn Guid.ofKey {key | key ∈ keys q} ∧ ∀ o : Options, ¬ (written o q).ids.Nodup := by
  intro p q
  have hequal : ∀ {p : Project}, ¬ (keys p).Nodup → ∀ o : Options, ¬ (written o p).ids.Nodup :=
    fun hn o hi => hn (.of_map Guid.ofKey (ids_written o _ ▸ hi))
  exact ⟨⟨by decide, by decide, by decide, injOn_keys (by decide +kernel), hequal (by decide +kernel)⟩,
    by decide, by decide, by decide, injOn_keys (by decide +kernel), hequal (by decide +kernel)⟩

end Distinct

end Articy

end StoryFlow
