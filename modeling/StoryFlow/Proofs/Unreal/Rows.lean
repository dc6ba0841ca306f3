import Mathlib.Data.List.Forall2
import StoryFlow.Proofs.FreshName
import StoryFlow.Proofs.Graph.Index
import StoryFlow.Proofs.Text.LineBreaks
import StoryFlow.Unreal

/-! # Rows of the table of lines

The numbers of rows run through the whole export, so no two rows share a name, and a row leads
only to rows of its own flow.
-/

namespace StoryFlow.Unreal

open Text

section Names

variable {name : String} {i j : Nat}

/-- The number of the node that a row belongs to. -/
def rowNumber (name : String) : Nat :=
  Nat.ofDigitChars 10 ((name.toList.drop 4).takeWhile Char.isDigit) 0

theorem rowNumber_append (i : Nat) (rest : String)
    (h : rest.toList.takeWhile Char.isDigit = []) : rowNumber (rowName i ++ rest) = i := by
  have hdigits : ((rowName i ++ rest).toList.drop 4).takeWhile Char.isDigit =
      (fourDigits i).toList := by
    rw [rowName, String.toList_append, String.toList_append, List.append_assoc,
      List.drop_left' (by decide)]
    rw [List.takeWhile_append_of_pos fun c hc => isDigit_of_mem_fourDigits hc, h, List.append_nil]
  rw [rowNumber, hdigits, ofDigitChars_fourDigits]

/-- The names of the rows of the node with number `i`. -/
def nodeNames (i : Nat) (n : Node) : List String :=
  rowName i :: (List.range' 1 n.body.responses.length).map (responseRowName (rowName i))

theorem rowNumber_of_mem_nodeNames {n : Node} (h : name ∈ nodeNames i n) : rowNumber name = i := by
  rcases List.mem_cons.mp h with rfl | h
  · simpa using rowNumber_append i "" rfl
  · obtain ⟨k, -, rfl⟩ := List.mem_map.mp h
    rw [responseRowName, String.append_assoc]
    exact rowNumber_append i _ (by simp [String.toList_append])

theorem responseRowName_inj (h : responseRowName name i = responseRowName name j) : i = j :=
  toString_inj ((String.append_right_inj _).mp h)

theorem nodup_nodeNames (i : Nat) (n : Node) : (nodeNames i n).Nodup := by
  refine List.nodup_cons.mpr ⟨fun h => ?_, (List.nodup_range' ..).map fun _ _ => responseRowName_inj⟩
  obtain ⟨k, -, hk⟩ := List.mem_map.mp h
  have hlength := congrArg (fun s : String => s.toList.length) hk
  simp [responseRowName, String.toList_append] at hlength

/-- Rows of different numbers have different names. -/
theorem nodup_flatMap_nodeNames {ns : List (Node × Nat)} (h : (ns.map Prod.snd).Nodup) :
    (ns.flatMap fun p => nodeNames p.2 p.1).Nodup := by
  refine List.nodup_flatMap.mpr ⟨fun p _ => nodup_nodeNames p.2 p.1, ?_⟩
  refine (List.pairwise_map.mp h).imp fun {p q} hne name hp hq => hne ?_
  exact (rowNumber_of_mem_nodeNames hp).symm.trans (rowNumber_of_mem_nodeNames hq)

end Names

section Cells

variable {r : Row}

/-- The cell of the next lines, and the names in it; an empty cell holds none. -/
def Row.cell (r : Row) : String :=
  "|".intercalate r.next

def Row.listed (r : Row) : List String :=
  if r.cell = "" then [] else (r.cell.toList.splitOn '|').map String.ofList

theorem Row.lookup_cell (r : Row) :
    (Row.header.zip r.fields).lookup "NextLines" = some (.text r.cell) :=
  rfl

/-- A name can be told from what stands around it in a cell. -/
def Legible (name : String) : Prop :=
  name ≠ "" ∧ '|' ∉ name.toList

theorem Row.listed_eq (h : ∀ name ∈ r.next, Legible name) : r.listed = r.next := by
  have hcell : r.cell.toList = ['|'].intercalate (r.next.map String.toList) :=
    String.toList_intercalate
  rw [listed]
  by_cases hn : r.next = []
  · rw [hn, cell, hn, String.intercalate_nil, if_pos rfl]
  · have hsplit : r.cell.toList.splitOn '|' = r.next.map String.toList := by
      rw [hcell, List.splitOn_intercalate]
      · exact List.forall_mem_map.mpr fun name hname => (h name hname).2
      · simpa using hn
    have hne : r.cell ≠ "" := by
      intro he
      obtain ⟨first, rest, hfirst⟩ := List.exists_cons_of_ne_nil hn
      rw [he, hfirst, show "".toList.splitOn '|' = [[]] from rfl, List.map_cons] at hsplit
      exact (h first (by simp [hfirst])).1 (String.toList_eq_nil_iff.mp (List.cons.inj hsplit).1.symm)
    rw [if_neg hne, hsplit, List.map_map]
    simp [Function.comp_def]

theorem legible_append {a b : String} (ha : Legible a) (hb : '|' ∉ b.toList) : Legible (a ++ b) := by
  refine ⟨fun h => ha.1 ?_, by simp [String.toList_append, ha.2, hb]⟩
  exact (String.append_eq_empty_iff.mp h).1

theorem legible_rowName (i : Nat) : Legible (rowName i) := by
  refine legible_append ⟨by decide, by decide⟩ fun h => ?_
  exact absurd (isDigit_of_mem_fourDigits h) (by decide)

theorem legible_responseRowName {name : String} (h : Legible name) (i : Nat) :
    Legible (responseRowName name i) := by
  refine legible_append (legible_append h (by decide)) fun h => ?_
  rw [Nat.toString_eq_ofList_toDigits, String.toList_ofList] at h
  exact absurd (Nat.isDigit_of_mem_toDigits (by decide) (by decide) h) (by decide)

end Cells

section Lookup

variable {f : Flow} {n : Node} {k i : Nat} {id name : String}

/-- The nodes of a flow that have rows, with their numbers. -/
def numbered (k : Nat) (f : Flow) : List (Node × Nat) :=
  (f.nodes.filter hasRow).zipIdx (k + 1)

theorem mem_of_lookup_rowNames (h : (rowNames k f).lookup id = some name) :
    ∃ p ∈ numbered k f, p.1.id = id ∧ rowName p.2 = name := by
  rw [rowNames, Assoc.lookup_ofPairs] at h
  obtain ⟨p, hp, he⟩ := List.mem_map.mp (List.mem_reverse.mp (Assoc.mem_of_lookup h))
  exact ⟨p, hp, Prod.mk.inj he⟩

theorem mem_nodes_of_mem_numbered {p : Node × Nat} (h : p ∈ numbered k f) :
    p.1 ∈ f.nodes ∧ hasRow p.1 := by
  have hm : p.1 ∈ (numbered k f).map Prod.fst := List.mem_map_of_mem h
  rw [numbered, List.zipIdx_map_fst] at hm
  exact List.mem_filter.mp hm

theorem lookup_rowNames (hd : (f.nodes.map Node.id).Nodup) (h : (n, i) ∈ numbered k f) :
    (rowNames k f).lookup n.id = some (rowName i) := by
  rw [rowNames, Assoc.lookup_ofPairs]
  refine Assoc.lookup_of_mem ?_ (List.mem_reverse.mpr (List.mem_map.mpr ⟨(n, i), h, rfl⟩))
  have hids : ((numbered k f).map Prod.fst).map Node.id = (f.nodes.filter hasRow).map Node.id := by
    rw [numbered, List.zipIdx_map_fst]
  rw [List.map_map] at hids
  rw [List.map_reverse, List.nodup_reverse, List.map_map]
  exact hids ▸ hd.sublist (List.filter_sublist.map _)

/-- The nodes of a flow that have rows are found, and no others. -/
theorem lookup_rowNames_isSome (hd : (f.nodes.map Node.id).Nodup) (hn : n ∈ f.nodes) :
    ((rowNames k f).lookup n.id).isSome = hasRow n := by
  rw [Bool.eq_iff_iff]
  constructor
  · intro h
    obtain ⟨name, hname⟩ := Option.isSome_iff_exists.mp h
    obtain ⟨p, hp, hid, -⟩ := mem_of_lookup_rowNames hname
    obtain ⟨hm, hr⟩ := mem_nodes_of_mem_numbered hp
    rwa [← List.inj_on_of_nodup_map hd hm hn hid]
  · intro h
    have hm : n ∈ (numbered k f).map Prod.fst := by
      rw [numbered, List.zipIdx_map_fst]
      exact List.mem_filter.mpr ⟨hn, h⟩
    obtain ⟨p, hp, rfl⟩ := List.mem_map.mp hm
    rw [lookup_rowNames hd hp]
    rfl

end Lookup

section Rows

variable {cx : Context} {n : Node} {sequence : Nat}

theorem responseRows_cons (cx : Context) (n : Node) (sequence : Nat) (name : String) (i : Nat)
    (r : Response) (rs : List Response) :
    ∃ row : Row, row.name = responseRowName name i ∧ row.kind = "response" ∧
      row.next = rowsOf cx (cx.index.outgoingAt n.id r.pin) ∧
      (responseRows cx n sequence name i (r :: rs)).value =
        row :: (responseRows cx n sequence name (i + 1) rs).value :=
  ⟨_, rfl, rfl, rfl, rfl⟩

theorem map_name_responseRows (name : String) (i : Nat) (rs : List Response) :
    (responseRows cx n sequence name i rs).value.map Row.name =
      (List.range' i rs.length).map (responseRowName name) := by
  induction rs generalizing i with
  | nil => rfl
  | cons r rs ih =>
    obtain ⟨row, hname, -, -, hrows⟩ := responseRows_cons cx n sequence name i r rs
    rw [hrows, List.map_cons, hname, ih]
    rfl

theorem forall₂_responseRows (cx : Context) (n : Node) (sequence : Nat) (name : String) (i : Nat)
    (rs : List Response) :
    List.Forall₂ (fun r row => row.kind = "response" ∧
        row.next = rowsOf cx (cx.index.outgoingAt n.id r.pin))
      rs (responseRows cx n sequence name i rs).value := by
  induction rs generalizing i with
  | nil => exact .nil
  | cons r rs ih =>
    obtain ⟨row, -, hkind, hnext, hrows⟩ := responseRows_cons cx n sequence name i r rs
    rw [hrows]
    exact .cons ⟨hkind, hnext⟩ (ih (i + 1))

/-- The row of a node itself and those of its responses. -/
structure OwnRows (cx : Context) (n : Node) (line : Row) (answers : List Row) : Prop where
  name_eq : line.name = (cx.names.lookup n.id).getD ""
  kind_eq : line.kind = n.body.kind
  next_exit : ∀ id, n.body = .exit id → line.next = []
  next_answers : n.body.responses ≠ [] → line.next = answers.map Row.name
  next_targets : n.body.responses = [] → (∀ id, n.body ≠ .exit id) →
    line.next = rowsOf cx (cx.index.outgoing n.id)
  answer_names : answers.map Row.name =
    (List.range' 1 n.body.responses.length).map (responseRowName line.name)
  answers : List.Forall₂ (fun r row => row.kind = "response" ∧
    row.next = rowsOf cx (cx.index.outgoingAt n.id r.pin)) n.body.responses answers

/-- A node of a known kind has a row and one more for each response; others have none. -/
theorem nodeRows_cases (cx : Context) (n : Node) (sequence : Nat) :
    hasRow n = false ∧ (nodeRows cx n sequence).value = [] ∨
    hasRow n ∧ ∃ line answers, OwnRows cx n line answers ∧
      (nodeRows cx n sequence).value = line :: answers := by
  rcases n with ⟨id, type, data, position, body⟩
  cases body with
  | unknown => exact Or.inl ⟨rfl, rfl⟩
  | exit technicalId =>
    refine Or.inr ⟨by simp [hasRow], _, [], ?_, rfl⟩
    exact ⟨rfl, rfl, fun _ _ => rfl, fun h => absurd rfl h, fun _ h => absurd rfl (h _), rfl, .nil⟩
  | dialogue d =>
    refine Or.inr ⟨by simp [hasRow], _, _, ?_, rfl⟩
    have hrows := forall₂_responseRows cx ⟨id, type, data, position, .dialogue d⟩ sequence
      ((cx.names.lookup id).getD "") 1 d.responses
    refine ⟨rfl, rfl, fun _ h => (by cases h), fun h => if_neg ?_, fun h _ => if_pos ?_,
      map_name_responseRows _ 1 d.responses, hrows⟩
    · intro he
      rw [List.isEmpty_iff.mp he, List.forall₂_nil_right_iff] at hrows
      exact h hrows
    · rw [Body.responses] at h
      rw [h]
      rfl
  | branching b | instruction assignments | hub h | jump j | entry | scene s | subflow s =>
    refine Or.inr ⟨by simp [hasRow], _, [], ?_, rfl⟩
    exact ⟨rfl, rfl, fun _ h => (by cases h), fun h => absurd rfl h, fun _ _ => rfl, rfl, .nil⟩

/-- What a row of a node leads to: rows of the node itself, or the rows of some edges. -/
theorem OwnRows.next_cases {line : Row} {answers : List Row} (h : OwnRows cx n line answers) :
    ∀ row ∈ line :: answers,
      row.next = answers.map Row.name ∨ ∃ edges, row.next = rowsOf cx edges := by
  have hanswers : ∀ row ∈ answers, ∃ edges, row.next = rowsOf cx edges := by
    intro row hrow
    have hrows := h.answers
    clear h
    generalize n.body.responses = rs at hrows
    induction hrows with
    | nil => simp at hrow
    | cons hr _ ih =>
      rcases List.mem_cons.mp hrow with rfl | hrow
      · exact ⟨_, hr.2⟩
      · exact ih hrow
  refine List.forall_mem_cons.mpr ⟨?_, fun row hrow => Or.inr (hanswers row hrow)⟩
  by_cases hr : n.body.responses = []
  · by_cases he : ∃ id, n.body = .exit id
    · obtain ⟨id, he⟩ := he
      exact Or.inr ⟨[], h.next_exit id he⟩
    · exact Or.inr ⟨_, h.next_targets hr fun id hid => he ⟨id, hid⟩⟩
  · exact Or.inl (h.next_answers hr)

theorem map_name_nodeRows (cx : Context) (n : Node) (sequence : Nat) :
    (nodeRows cx n sequence).value.map Row.name =
      if hasRow n then
        let name := (cx.names.lookup n.id).getD ""
        name :: (List.range' 1 n.body.responses.length).map (responseRowName name)
      else [] := by
  rcases nodeRows_cases cx n sequence with ⟨hn, he⟩ | ⟨hn, line, answers, h, he⟩
  · simp [hn, he]
  · rw [he, List.map_cons, h.answer_names, h.name_eq, if_pos hn]

end Rows

section Tables

variable {cx : Context} {f : Flow} {k : Nat}

/-- The rows of nodes, node by node. -/
def table (cx : Context) (sequence : Nat) (ns : List Node) : List (Node × List Row) :=
  (ns.zipIdx sequence).map fun (n, i) => (n, (nodeRows cx n i).value)

theorem nodesRows_eq (cx : Context) (sequence : Nat) (ns : List Node) :
    (nodesRows cx sequence ns).value = (table cx sequence ns).flatMap Prod.snd := by
  induction ns generalizing sequence with
  | nil => rfl
  | cons n ns ih =>
    have hvalue : (nodesRows cx sequence (n :: ns)).value =
      (nodeRows cx n sequence).value ++ (nodesRows cx (sequence + 1) ns).value := rfl
    rw [hvalue, ih]
    rfl

theorem map_fst_table (cx : Context) (sequence : Nat) (ns : List Node) :
    (table cx sequence ns).map Prod.fst = ns := by
  rw [table, List.map_map]
  exact List.zipIdx_map_fst sequence ns

theorem mem_table {entry : Node × List Row} {sequence : Nat} {ns : List Node}
    (h : entry ∈ table cx sequence ns) :
    entry.1 ∈ ns ∧ ∃ i, entry.2 = (nodeRows cx entry.1 i).value := by
  refine ⟨map_fst_table cx sequence ns ▸ List.mem_map_of_mem h, ?_⟩
  obtain ⟨p, -, rfl⟩ := List.mem_map.mp h
  exact ⟨p.2, rfl⟩

/-- The rows of a flow have the names that its nodes are numbered with. -/
theorem map_name_table (hd : (f.nodes.map Node.id).Nodup) (hx : cx.names = rowNames k f) :
    ((table cx 0 f.nodes).flatMap Prod.snd).map Row.name =
      (numbered k f).flatMap fun p => nodeNames p.2 p.1 := by
  let names (n : Node) : List String := (nodeRows cx n 0).value.map Row.name
  have hentry : ∀ entry ∈ table cx 0 f.nodes, entry.2.map Row.name = names entry.1 := by
    intro entry hentry
    obtain ⟨-, i, hi⟩ := mem_table hentry
    rw [hi, map_name_nodeRows, ← map_name_nodeRows cx entry.1 0]
  have hnames : ∀ p ∈ numbered k f, names p.1 = nodeNames p.2 p.1 := by
    intro p hp
    simp only [names, map_name_nodeRows, if_pos (mem_nodes_of_mem_numbered hp).2, hx,
      lookup_rowNames hd hp, Option.getD_some, nodeNames]
  have hfilter : ∀ ns : List Node, ns.flatMap names = (ns.filter hasRow).flatMap names := by
    intro ns
    induction ns with
    | nil => rfl
    | cons n ns ih =>
      by_cases hn : hasRow n
      · rw [List.filter_cons_of_pos hn, List.flatMap_cons, List.flatMap_cons, ih]
      · have hnil : names n = [] := by simp [names, map_name_nodeRows, hn]
        rw [List.filter_cons_of_neg hn, List.flatMap_cons, hnil, ih, List.nil_append]
  calc ((table cx 0 f.nodes).flatMap Prod.snd).map Row.name
      = (table cx 0 f.nodes).flatMap fun entry => names entry.1 := by
        rw [List.map_flatMap, List.flatMap_congr hentry]
    _ = f.nodes.flatMap names := by
        rw [← List.flatMap_map, map_fst_table]
    _ = ((numbered k f).map Prod.fst).flatMap names := by
        rw [hfilter, numbered, List.zipIdx_map_fst]
    _ = (numbered k f).flatMap fun p => nodeNames p.2 p.1 := by
        rw [List.flatMap_map, List.flatMap_congr hnames]

/-- The row of the node with an id, if it has one. -/
def rowOf (table : List (Node × List Row)) (id : String) : Option String :=
  (table.find? (·.1.id = id)).bind fun entry => entry.2.head?.map Row.name

theorem rowOf_table (hd : (f.nodes.map Node.id).Nodup) (hx : cx.names = rowNames k f)
    (id : String) : rowOf (table cx 0 f.nodes) id = cx.names.lookup id := by
  rw [rowOf]
  cases hfind : (table cx 0 f.nodes).find? (·.1.id = id) with
  | none =>
    refine (Option.eq_none_iff_forall_ne_some.mpr fun name hname => ?_).symm
    obtain ⟨p, hp, hid, -⟩ := mem_of_lookup_rowNames (hx ▸ hname)
    have hm : p.1 ∈ (table cx 0 f.nodes).map Prod.fst :=
      (map_fst_table cx 0 f.nodes).symm ▸ (mem_nodes_of_mem_numbered hp).1
    obtain ⟨entry, hentry, he⟩ := List.mem_map.mp hm
    exact absurd (he ▸ hid) (by simpa using List.find?_eq_none.mp hfind entry hentry)
  | some entry =>
    obtain ⟨hn, i, hi⟩ := mem_table (List.mem_of_find?_eq_some hfind)
    obtain rfl : entry.1.id = id := by simpa using List.find?_some hfind
    have hsome := lookup_rowNames_isSome (k := k) hd hn
    rw [← hx] at hsome
    have hnames := congrArg List.head? (map_name_nodeRows cx entry.1 i)
    rw [List.head?_map] at hnames
    rw [Option.bind_some, hi, hnames]
    cases hl : cx.names.lookup entry.1.id with
    | none => rw [if_neg (by simp [← hsome, hl]), List.head?_nil]
    | some name => rw [if_pos (by simp [← hsome, hl])]; rfl

theorem rowsOf_eq (hd : (f.nodes.map Node.id).Nodup) (hx : cx.names = rowNames k f)
    (edges : List Edge) :
    rowsOf cx edges = edges.filterMap fun e => rowOf (table cx 0 f.nodes) e.target := by
  simp only [rowsOf, rowOf_table hd hx]

/-- Connections lead to the rows of their targets. -/
theorem rowsOf_ofConnection (hd : (f.nodes.map Node.id).Nodup) (hx : cx.names = rowNames k f)
    (cs : List Connection) : rowsOf cx (cs.map Edge.ofConnection) =
      cs.filterMap fun c => rowOf (table cx 0 f.nodes) c.target := by
  rw [rowsOf_eq hd hx, List.filterMap_map]
  rfl

/-- The rows of a node in the table of its flow, where `rowOf` finds the row of a node by its id:
one for the node, unless its kind is unknown, and one for each response. A line with responses
leads to their rows. Any other node that is no exit follows the connections that leave it, in the
order of their pins, and a response those of its own pin; they lead to the rows of those targets that
have one. -/
structure NodeTable (f : Flow) (rowOf : String → Option String) (n : Node) (rs : List Row) :
    Prop where
  length_eq : rs.length = if hasRow n then n.body.responses.length + 1 else 0
  kind : ∀ line ∈ rs.head?, line.kind = n.body.kind
  exit : ∀ id, n.body = .exit id → ∀ line ∈ rs.head?, line.listed = []
  choices : n.body.responses ≠ [] → ∀ line ∈ rs.head?, line.listed = rs.tail.map Row.name
  targets : n.body.responses = [] → (∀ id, n.body ≠ .exit id) → ∀ line ∈ rs.head?,
    line.listed = (f.leaving n.id).filterMap fun c => rowOf c.target
  answers : List.Forall₂ (fun r row => row.kind = "response" ∧
    row.listed = (f.leavingAt n.id r.pin).filterMap fun c => rowOf c.target)
    n.body.responses rs.tail

/-- The rows of a flow, node by node. -/
structure FlowTable (f : Flow) (table : List (Node × List Row)) : Prop where
  nodes_eq : table.map Prod.fst = f.nodes
  linked : ∀ entry ∈ table, NodeTable f (rowOf table) entry.1 entry.2
  closed : ∀ entry ∈ table, ∀ row ∈ entry.2, ∀ name ∈ row.listed,
    ∃ other ∈ table, name ∈ other.2.map Row.name

/-- The names of a flow's rows can be told apart in a cell. -/
theorem legible_of_mem_table (hd : (f.nodes.map Node.id).Nodup) (hx : cx.names = rowNames k f)
    {entry : Node × List Row} (hentry : entry ∈ table cx 0 f.nodes) {row : Row}
    (hrow : row ∈ entry.2) : Legible row.name := by
  have hm : row.name ∈ (numbered k f).flatMap fun p => nodeNames p.2 p.1 := by
    rw [← map_name_table hd hx]
    exact List.mem_map_of_mem (List.mem_flatMap.mpr ⟨entry, hentry, hrow⟩)
  obtain ⟨p, -, hname⟩ := List.mem_flatMap.mp hm
  rcases List.mem_cons.mp hname with he | hname
  · exact he ▸ legible_rowName p.2
  · obtain ⟨i, -, he⟩ := List.mem_map.mp hname
    exact he ▸ legible_responseRowName (legible_rowName p.2) i

/-- A row leads to rows of its own flow. -/
theorem next_closed (hd : (f.nodes.map Node.id).Nodup) (hx : cx.names = rowNames k f)
    {entry : Node × List Row} (hentry : entry ∈ table cx 0 f.nodes) {row : Row}
    (hrow : row ∈ entry.2) {name : String} (hname : name ∈ row.next) :
    ∃ other ∈ table cx 0 f.nodes, name ∈ other.2.map Row.name := by
  obtain ⟨-, i, hi⟩ := mem_table hentry
  rcases nodeRows_cases cx entry.1 i with ⟨-, he⟩ | ⟨-, line, answers, h, he⟩
  · rw [hi, he] at hrow
    exact absurd hrow (by simp)
  · rw [hi, he] at hrow
    rcases h.next_cases row hrow with hn | ⟨edges, hn⟩
    · refine ⟨entry, hentry, ?_⟩
      rw [hi, he]
      exact List.mem_cons_of_mem _ (hn ▸ hname)
    · rw [hn, rowsOf_eq hd hx] at hname
      obtain ⟨e, -, hrowOf⟩ := List.mem_filterMap.mp hname
      obtain ⟨other, hfind, hhead⟩ := Option.bind_eq_some_iff.mp hrowOf
      obtain ⟨first, hfirst, rfl⟩ := Option.map_eq_some_iff.mp hhead
      exact ⟨other, List.mem_of_find?_eq_some hfind,
        List.mem_map_of_mem (List.mem_of_mem_head? hfirst)⟩

/-- So the cell of a row can be read back. -/
theorem listed_of_mem_table (hd : (f.nodes.map Node.id).Nodup) (hx : cx.names = rowNames k f)
    {entry : Node × List Row} (hentry : entry ∈ table cx 0 f.nodes) {row : Row}
    (hrow : row ∈ entry.2) : row.listed = row.next := by
  refine Row.listed_eq fun name hname => ?_
  obtain ⟨other, hother, hm⟩ := next_closed hd hx hentry hrow hname
  obtain ⟨row', hrow', rfl⟩ := List.mem_map.mp hm
  exact legible_of_mem_table hd hx hother hrow'

theorem nodeTable (hd : (f.nodes.map Node.id).Nodup) (hx : cx.names = rowNames k f)
    (hindex : cx.index = f.index) {entry : Node × List Row} (hentry : entry ∈ table cx 0 f.nodes) :
    NodeTable f (rowOf (table cx 0 f.nodes)) entry.1 entry.2 := by
  have hlisted : ∀ row ∈ entry.2, row.listed = row.next := fun row hrow =>
    listed_of_mem_table hd hx hentry hrow
  have hrows := rowsOf_ofConnection hd hx
  obtain ⟨-, i, hi⟩ := mem_table hentry
  generalize table cx 0 f.nodes = all at hrows
  obtain ⟨n, rs⟩ := entry
  rcases nodeRows_cases cx n i with ⟨hn, he⟩ | ⟨hn, line, answers, h, he⟩
  · obtain rfl : rs = [] := hi.trans he
    have hb : n.body = .unknown := by simpa [hasRow] using hn
    have hr : n.body.responses = [] := by rw [hb]; rfl
    exact ⟨by simp [hn], by simp, by simp, by simp, by simp, by simp [hr]⟩
  · obtain rfl : rs = line :: answers := hi.trans he
    rw [List.forall_mem_cons] at hlisted
    have hline : ∀ {P : Row → Prop}, P line → ∀ first ∈ (line :: answers).head?, P first := by
      rintro P hP first hfirst
      obtain rfl := Option.some.inj hfirst
      exact hP
    refine ⟨?_, hline h.kind_eq, fun id hid => hline ?_, fun hr => hline ?_, fun hr hexit => hline ?_,
      ?_⟩
    · rw [if_pos hn, List.length_cons, h.answers.length_eq]
    · rw [hlisted.1, h.next_exit id hid]
    · rw [hlisted.1, h.next_answers hr, List.tail_cons]
    · rw [hlisted.1, h.next_targets hr hexit, hindex, f.outgoing_index, hrows]
    · have hanswers := ((List.forall₂_and_left _ _).mpr ⟨hlisted.2, h.answers.flip⟩).flip
      refine hanswers.imp fun r row ⟨hrow, hkind, hnext⟩ => ⟨hkind, ?_⟩
      rw [hrow, hnext, hindex, f.outgoingAt_index, hrows]

theorem flowTable (hd : (f.nodes.map Node.id).Nodup) (hx : cx.names = rowNames k f)
    (hindex : cx.index = f.index) : FlowTable f (table cx 0 f.nodes) where
  nodes_eq := map_fst_table cx 0 f.nodes
  linked _ hentry := nodeTable hd hx hindex hentry
  closed _ hentry _ hrow _ hname :=
    next_closed hd hx hentry hrow (listed_of_mem_table hd hx hentry hrow ▸ hname)

end Tables

section Export

variable {sheets : List Sheet} {conversations : UniqueKeys} {k : Nat} {fs : List Flow}

/-- What the rows of a flow depend on when they are numbered after `k`. -/
def contextOf (sheets : List Sheet) (conversations : UniqueKeys) (k : Nat) (f : Flow) : Context :=
  ⟨sheets, (conversations.get? f.id).getD (conversationId f), rowNames k f, f.index⟩

/-- The tables of flows, numbered after `k`. -/
def tables (sheets : List Sheet) (conversations : UniqueKeys) :
    Nat → List Flow → List (Flow × List (Node × List Row))
  | _, [] => []
  | k, f :: fs =>
    (f, table (contextOf sheets conversations k f) 0 f.nodes) ::
      tables sheets conversations (k + (f.nodes.filter hasRow).length) fs

theorem map_fst_tables (k : Nat) (fs : List Flow) :
    (tables sheets conversations k fs).map Prod.fst = fs := by
  induction fs generalizing k with
  | nil => rfl
  | cons f fs ih => rw [tables, List.map_cons, ih]

theorem rows_cons (k : Nat) (f : Flow) (fs : List Flow) :
    (rows sheets conversations k (f :: fs)).value =
      (table (contextOf sheets conversations k f) 0 f.nodes).flatMap Prod.snd ++
        (rows sheets conversations (k + (f.nodes.filter hasRow).length) fs).value := by
  rw [← nodesRows_eq]
  rfl

theorem rows_eq (k : Nat) (fs : List Flow) : (rows sheets conversations k fs).value =
    (tables sheets conversations k fs).flatMap fun t => t.2.flatMap Prod.snd := by
  induction fs generalizing k with
  | nil => rfl
  | cons f fs ih => rw [rows_cons, ih, tables, List.flatMap_cons]

theorem flowTable_of_mem_tables (hd : ∀ f ∈ fs, (f.nodes.map Node.id).Nodup) :
    ∀ t ∈ tables sheets conversations k fs, FlowTable t.1 t.2 := by
  induction fs generalizing k with
  | nil => simp [tables]
  | cons f fs ih =>
    rw [List.forall_mem_cons] at hd
    exact List.forall_mem_cons.mpr ⟨flowTable hd.1 rfl rfl, ih hd.2⟩

/-- The numbers run on from flow to flow. -/
theorem map_name_rows (hd : ∀ f ∈ fs, (f.nodes.map Node.id).Nodup) :
    (rows sheets conversations k fs).value.map Row.name =
      ((fs.flatMap fun f => f.nodes.filter hasRow).zipIdx (k + 1)).flatMap
        fun p => nodeNames p.2 p.1 := by
  induction fs generalizing k with
  | nil => rfl
  | cons f fs ih =>
    rw [List.forall_mem_cons] at hd
    rw [rows_cons, List.map_append, map_name_table hd.1 rfl, ih hd.2, List.flatMap_cons,
      List.zipIdx_append, List.flatMap_append, Nat.add_right_comm k]
    rfl

/-- The rows of the table of lines. -/
def lines (p : Project) : List Row :=
  (rows p.sheets (UniqueKeys.ofList p.flows Flow.id conversationId) 0 p.flows).value

/-- A question with two answers, a node of an unknown kind in front of it, and a second flow whose
edge leads nowhere. One answer leads to two nodes, and the first of these is a condition whose pins
are stored out of order. -/
def journey : Project where
  info := ⟨"1", "Journey", none, none, []⟩
  sheets := []
  flows := [⟨"1", some "inn", "Inn", none, none, true, [],
      [.ofStored "start" "entry" [] none none, .ofStored "odd" "mystery" [] none none,
        .ofStored "ask" "dialogue" [("text", .str "Stay?"),
          ("responses", .arr [.obj [("id", .str "yes")], .obj [("id", .str "no")]])] none none,
        .ofStored "check" "condition" [] none none, .ofStored "bed" "hub" [] none none,
        .ofStored "leave" "exit" [] none none],
      [⟨none, "start", "output", "ask", none, none⟩,
        ⟨none, "ask", "response_no", "leave", none, none⟩,
        ⟨none, "check", "true", "bed", none, none⟩,
        ⟨none, "ask", "response_yes", "check", none, none⟩,
        ⟨none, "check", "false", "odd", none, none⟩,
        ⟨none, "check", "false", "leave", none, none⟩,
        ⟨none, "ask", "response_yes", "leave", none, none⟩]⟩,
    ⟨"2", some "road", "Road", none, none, false, [],
      [.ofStored "start" "entry" [] none none], [⟨none, "start", "output", "gone", none, none⟩]⟩]
  scenes := []
  screenplays := []
  localization := .empty
  assets := []

def journeyOptions : Options :=
  ⟨.unreal, "1.0", true, true, true, true, true, none, .all, .all, .all, .all, true, true,
    "2024-01-01T00:00:00Z"⟩

end Export

end StoryFlow.Unreal
