import StoryFlow.Proofs.Graph.Targets

/-! # Bodies are written at most twice

The first step of a body is written when its node is entered, which happens once, and again at the
start of its join section. So the first steps of a script are as many as the nodes that were entered
and the join sections, however many branches meet.
-/

namespace StoryFlow

/-- The node whose body a step begins. -/
def Step.head? : Step → Option String
  | .dialogue id _ | .conditionStart id _ | .instruction id _ | .scene id _
  | .subflow id _ => some id
  | .choicesStart _ | .choice _ _ _ | .choicesEnd _ | .conditionBranch _ _ _ _ | .conditionEnd _ _
  | .jump _ _ _ | .divert _ | .exit _ => none

/-- How many steps begin the body of a node that is counted. -/
def headCount (counted : String → Bool) (ss : List Step) : Nat :=
  ss.countP fun s => s.head?.any counted

/-- How often steps begin the body of a node. -/
def headsOf (id : String) (ss : List Step) : Nat :=
  headCount (· == id) ss

/-- The steps of a script outside the join section of a node. -/
def LinearScript.beside (script : LinearScript) (id : String) : List Step :=
  script.main ++ (script.sections.filter (·.key ≠ (.join, id))).flatMap Section.steps

namespace Linearize

variable {index : Index} {counted : String → Bool} {path : List String} {task : Task}
  {p q r : Progress} {ss ts : List Step} {node : Node} {id : String}

section Plans

@[simp] theorem headCount_nil : headCount counted [] = 0 := rfl

@[simp] theorem headCount_append :
    headCount counted (ss ++ ts) = headCount counted ss + headCount counted ts :=
  List.countP_append

theorem headCount_cons (s : Step) : headCount counted (s :: ss) =
    headCount counted ss + if s.head?.any counted then 1 else 0 :=
  List.countP_cons

theorem headCount_eq_zero (h : ∀ s ∈ ss, s.head? = none) : headCount counted ss = 0 := by
  rw [headCount, List.countP_eq_zero]
  intro s hs
  simp [h s hs]

/-- A plan begins no body behind its opening. -/
theorem head?_plan (index : Index) (node : Node) :
    (∀ s ∈ (plan index node).closing, s.head? = none) ∧
      ∀ a ∈ (plan index node).arms, ∀ s ∈ a.heads, s.head? = none := by
  unfold plan
  cases node.body with
  | dialogue d =>
    by_cases hd : d.responses.isEmpty
    · simp [hd]
    · simp only [hd]
      refine ⟨List.forall_mem_singleton.mpr rfl, ?_⟩
      intro a ha
      obtain ⟨k, r, _, rfl⟩ := mem_choiceArms.mp ha
      exact List.forall_mem_singleton.mpr rfl
  | branching b =>
    refine ⟨List.forall_mem_singleton.mpr rfl, ?_⟩
    intro a ha
    obtain ⟨k, c, _, rfl⟩ := mem_branchArms.mp ha
    exact List.forall_mem_singleton.mpr rfl
  | entry | exit | instruction | scene | subflow | hub | jump | unknown => simp

/-- A body begins with its first step. -/
theorem opening_of_hasBody (index : Index) (hb : node.hasBody) :
    ∃ s rest, (plan index node).opening = s :: rest ∧ s.head? = some node.id ∧
      ∀ t ∈ rest, t.head? = none := by
  unfold Node.hasBody at hb
  unfold plan
  cases hbody : node.body with
  | dialogue d =>
    by_cases hd : d.responses.isEmpty
    · exact ⟨.dialogue node.id d, [], by simp [hd], rfl, by simp⟩
    · exact ⟨.dialogue node.id d, [.choicesStart node.id], by simp [hd], rfl,
        List.forall_mem_singleton.mpr rfl⟩
  | branching | instruction | scene | subflow => exact ⟨_, [], rfl, rfl, by simp⟩
  | entry | exit | hub | jump | unknown => simp [hbody] at hb

theorem opening_of_not_hasBody (index : Index) (hb : ¬ node.hasBody) :
    ∀ s ∈ (plan index node).opening, s.head? = none := by
  unfold Node.hasBody at hb
  unfold plan
  cases hbody : node.body with
  | dialogue | branching | instruction | scene | subflow => simp [hbody] at hb
  | exit | hub | jump => exact List.forall_mem_singleton.mpr rfl
  | entry | unknown => simp

theorem headCount_opening (index : Index) (node : Node) :
    headCount counted (plan index node).opening =
      if node.hasBody ∧ counted node.id then 1 else 0 := by
  by_cases hb : node.hasBody
  · obtain ⟨s, rest, ho, hs, hrest⟩ := opening_of_hasBody index hb
    rw [ho, headCount_cons, headCount_eq_zero hrest, hs]
    simp [hb]
  · rw [headCount_eq_zero (opening_of_not_hasBody index hb)]
    simp [hb]

end Plans

section Runs

/-- Writing out a node begins its body, which the progress counts already. -/
def Task.begins (counted : String → Bool) : Task → Nat
  | .expand node => if node.hasBody ∧ counted node.id then 1 else 0
  | _ => 0

theorem countP_expanded_enter (node : Node) (p : Progress) :
    (enter node p).expanded.countP counted =
      p.expanded.countP counted + (Task.expand node).begins counted := by
  unfold enter Task.begins
  by_cases hb : node.hasBody <;> simp [hb, List.countP_cons]

/-- A run begins the bodies that it adds to those that were written. -/
theorem Run.headCount_eq (counted : String → Bool) (hc : index.Coherent)
    (h : Run index path task p ss q) (hk : task.Known index)
    (hh : task.HeadsAll fun s => s.head? = none) :
    headCount counted ss + p.expanded.countP counted =
      q.expanded.countP counted + task.begins counted := by
  induction h with
  | missing | noEdge | noArm => simp [Task.begins]
  | @onPath path id node p =>
    have hz : headCount counted (closing node) = 0 :=
      headCount_eq_zero (by simp [closing, Step.head?])
    simp [hz, Task.begins]
  | shared =>
    have hz : ∀ label, headCount counted [.divert label] = 0 :=
      fun label => headCount_eq_zero (List.forall_mem_singleton.mpr rfl)
    simp [hz, Task.begins]
  | @entered path id node p ss q hn _ _ _ ih =>
    obtain rfl := hc.node_id hn
    have hrun := ih hn trivial
    rw [countP_expanded_enter] at hrun
    simp only [Task.begins] at hrun ⊢
    omega
  | edge _ _ ih ih' =>
    have hfirst := ih trivial trivial
    have hrest := ih' trivial trivial
    simp only [headCount_append, Task.begins] at hfirst hrest ⊢
    omega
  | @arm path a as p ss q ts r _ _ ih ih' =>
    obtain ⟨hheads, hrest⟩ := List.forall_mem_cons.mp hh
    have hbody := ih trivial trivial
    have hafter := ih' trivial hrest
    simp only [headCount_append, headCount_eq_zero hheads, Task.begins] at hbody hafter ⊢
    omega
  | @expand path node p ss q _ ih =>
    obtain ⟨hclosing, harms⟩ := head?_plan index node
    have hbody := ih trivial harms
    rw [expanded_ask] at hbody
    simp only [headCount_append, headCount_opening, headCount_eq_zero hclosing,
      Task.begins] at hbody ⊢
    omega

end Runs

section Sections

variable {pending : Pending} {t : Section} {sections : List Section} {entry : Node}
  {script : LinearScript}

/-- Is a section the join section of a node that is counted? -/
def countedJoin (counted : String → Bool) (t : Section) : Bool :=
  decide (t.kind = .join) && counted t.node

theorem SectionRun.headCount_eq (counted : String → Bool) (hc : index.Coherent)
    (h : SectionRun index pending p t q) (ha : Asked index p pending) :
    headCount counted t.steps + p.expanded.countP counted =
      q.expanded.countP counted + if countedJoin counted t then 1 else 0 := by
  cases h with
  | hub h => exact h.headCount_eq counted hc trivial trivial
  | join h =>
    have hrun := h.headCount_eq counted hc ha.2.1 trivial
    simpa [Task.begins, countedJoin, ha.2.2] using hrun

theorem Drain.headCount_eq (counted : String → Bool) (hc : index.Coherent)
    (h : Drain index p sections r) (hs : Sound index p) :
    headCount counted (sections.flatMap Section.steps) + p.expanded.countP counted =
      r.expanded.countP counted + sections.countP (countedJoin counted) := by
  induction h with
  | empty => simp
  | @next p pending queue t q sections r hq h _ ih =>
    have ha := hs.asked_head hq
    have hrest := ih (h.sound hc ha (hs.pop hq))
    have hfirst := h.headCount_eq counted hc ha
    rw [List.flatMap_cons, headCount_append, List.countP_cons]
    dsimp only at hfirst
    omega

/-- The bodies that a script begins are those that it wrote and those of its join sections. -/
theorem ScriptRun.headCount_eq (counted : String → Bool) (hc : index.Coherent)
    (h : ScriptRun index entry script p q) :
    headCount counted script.steps =
      q.expanded.countP counted + script.sections.countP (countedJoin counted) := by
  have hmain := h.main.headCount_eq counted hc trivial trivial
  have hdrain := h.drain.headCount_eq counted hc (h.sound_main hc)
  simp only [start, List.countP_nil, Task.begins] at hmain
  rw [LinearScript.steps, headCount_append]
  omega

/-- The join section of a node begins with its body, and begins it once. -/
theorem ScriptRun.join_begins (hc : index.Coherent) (h : ScriptRun index entry script p q)
    (ht : t ∈ script.sections) (hk : t.kind = .join) :
    ∃ s rest, t.steps = s :: rest ∧ s.head? = some t.node ∧ headsOf t.node rest = 0 := by
  obtain ⟨pending, p', q', hr, ha, hs, -⟩ := h.written hc t ht
  have hs' := hr.sound hc ha hs
  have hcount := hr.headCount_eq (· == t.node) hc ha
  have hx := (hr.extends hc ha).expanded
  cases hr with
  | hub => simp at hk
  | @join node label p' ss q' hr =>
    have hi : node.id ∈ p'.expanded := hs.joins_expanded (List.mem_map.mpr ⟨_, ha.1, rfl⟩)
    obtain ⟨s, rest, ho, hhead, -⟩ := opening_of_hasBody index ha.2.2
    cases hr with
    | @expand _ _ _ ss _ hr =>
      refine ⟨s, rest ++ (ss ++ (plan index node).closing), ?_, hhead, ?_⟩
      · rw [ho, List.cons_append]
      · have hp : p'.expanded.count node.id = 1 := List.count_eq_one_of_mem hs.expanded_nodup hi
        have hq : q'.expanded.count node.id = 1 :=
          List.count_eq_one_of_mem hs'.expanded_nodup (hx hi)
        simp only [ho, List.cons_append, headCount_cons, hhead, countedJoin] at hcount
        simp only [List.count_eq_countP] at hp hq
        simpa [headsOf, hp, hq] using hcount

/-- The steps of a script are those of the join section of a node and those outside it. -/
theorem headsOf_steps (script : LinearScript) (id : String) :
    headsOf id script.steps = headsOf id (script.beside id) +
      headsOf id ((script.sections.filter (·.key = (.join, id))).flatMap Section.steps) := by
  have hperm := (List.filter_append_perm (fun t : Section => decide (t.key = (.join, id)))
    script.sections).flatMap_right Section.steps
  have hcount := hperm.countP_eq fun s => s.head?.any (· == id)
  simp only [List.flatMap_append, List.countP_append] at hcount
  simp only [headsOf, headCount, LinearScript.steps, LinearScript.beside, List.countP_append, ne_eq,
    decide_not]
  omega

/-- Sections that begin a body once each begin it as often as they are. -/
theorem headsOf_flatMap
    (h : ∀ t ∈ sections, ∃ s rest, t.steps = s :: rest ∧ s.head? = some id ∧ headsOf id rest = 0) :
    headsOf id (sections.flatMap Section.steps) = sections.length := by
  induction sections with
  | nil => rfl
  | cons t sections ih =>
    obtain ⟨⟨s, rest, ht, hs, hrest⟩, hsections⟩ := List.forall_mem_cons.mp h
    have hone : headsOf id t.steps = 1 := by
      rw [ht, headsOf, headCount_cons, ← headsOf, hrest, hs]
      simp
    rw [List.flatMap_cons, headsOf, headCount_append, ← headsOf, ← headsOf, hone, ih hsections,
      List.length_cons, Nat.add_comm]

theorem length_filter_key (sections : List Section) (id : String) :
    (sections.filter (·.key = (.join, id))).length =
      (sections.map Section.key).count (.join, id) := by
  rw [List.count_eq_countP, List.countP_map, ← List.countP_eq_length_filter]
  exact List.countP_congr fun t _ => by simp

theorem countP_countedJoin (sections : List Section) (id : String) :
    sections.countP (countedJoin (· == id)) = (sections.map Section.key).count (.join, id) := by
  rw [List.count_eq_countP, List.countP_map]
  refine List.countP_congr fun t _ => ?_
  simp [countedJoin, Section.key]

theorem ScriptRun.join_of_key (hc : index.Coherent) (h : ScriptRun index entry script p q) :
    ∀ t ∈ script.sections, t.key = (.join, id) →
      ∃ s rest, t.steps = s :: rest ∧ s.head? = some id ∧ headsOf id rest = 0 := by
  intro t ht hk
  obtain ⟨hkind, rfl⟩ := Prod.mk.inj hk
  exact h.join_begins hc ht hkind

/-- Outside its join section a body begins once if it was written at all. -/
theorem ScriptRun.headsOf_beside (hc : index.Coherent) (h : ScriptRun index entry script p q)
    (id : String) : headsOf id (script.beside id) = q.expanded.count id := by
  have hall := h.headCount_eq (· == id) hc
  have hown : ∀ t ∈ script.sections.filter (·.key = (.join, id)), ∃ s rest,
      t.steps = s :: rest ∧ s.head? = some id ∧ headsOf id rest = 0 := by
    intro t ht
    obtain ⟨ht, hk⟩ := List.mem_filter.mp ht
    exact h.join_of_key hc t ht (of_decide_eq_true hk)
  have hsplit := headsOf_steps script id
  rw [headsOf_flatMap hown, length_filter_key, ← countP_countedJoin] at hsplit
  rw [← headsOf] at hall
  rw [List.count_eq_countP]
  omega

/-- The node of a join section was written before. -/
theorem ScriptRun.mem_expanded (hc : index.Coherent) (h : ScriptRun index entry script p q)
    (ht : t ∈ script.sections) (hk : t.kind = .join) : t.node ∈ q.expanded := by
  obtain ⟨pending, _, _, hr, ha, -, hx, -⟩ := h.written hc t ht
  cases hr with
  | hub => simp at hk
  | join => exact (h.sound hc).joins_expanded (List.mem_map.mpr ⟨_, hx.joins ha.1, rfl⟩)

theorem ScriptRun.headsOf_eq (hc : index.Coherent) (h : ScriptRun index entry script p q)
    (id : String) :
    headsOf id script.steps =
      q.expanded.count id + (script.sections.map Section.key).count (.join, id) := by
  rw [← countP_countedJoin, List.count_eq_countP]
  exact h.headCount_eq (· == id) hc

/-- What has a join section begins twice, and all else at most once. -/
theorem ScriptRun.headsOf_cases (hc : index.Coherent) (h : ScriptRun index entry script p q)
    (id : String) :
    (headsOf id script.steps = 2 ∧ ∃ t ∈ script.sections, t.key = (.join, id)) ∨
      headsOf id script.steps ≤ 1 ∧ ¬ ∃ t ∈ script.sections, t.key = (.join, id) := by
  have hs := h.sound hc
  have hkeys : (script.sections.map Section.key).Nodup :=
    (h.perm_askedKeys hc).nodup_iff.mp hs.nodup_askedKeys
  rw [h.headsOf_eq hc]
  by_cases hj : ∃ t ∈ script.sections, t.key = (.join, id)
  · obtain ⟨t, ht, hk⟩ := hj
    obtain ⟨hkind, rfl⟩ := Prod.mk.inj hk
    have hbody := List.count_eq_one_of_mem hs.expanded_nodup (h.mem_expanded hc ht hkind)
    have hjoin := List.count_eq_one_of_mem hkeys (List.mem_map.mpr ⟨t, ht, hk⟩)
    exact Or.inl ⟨by rw [hbody, hjoin], t, ht, hk⟩
  · have hbody := List.nodup_iff_count_le_one.mp hs.expanded_nodup id
    have hjoin := List.count_eq_zero.mpr fun hm => hj (List.mem_map.mp hm)
    exact Or.inr ⟨by omega, hj⟩

/-- There are at most as many join sections as nodes that were written. -/
theorem ScriptRun.countP_join_le (hc : index.Coherent) (h : ScriptRun index entry script p q) :
    script.sections.countP (countedJoin fun _ => true) ≤ q.expanded.length := by
  have hsections : script.sections.countP (countedJoin fun _ => true) =
      (script.sections.map Section.key).countP fun key => decide (key.1 = .join) := by
    rw [List.countP_map]
    refine List.countP_congr fun t _ => ?_
    rw [countedJoin, Bool.and_true]
    rfl
  have hasked : (askedKeys q).countP (fun key => decide (key.1 = .join)) = q.joinLabels.length := by
    simp [askedKeys, List.countP_map, Function.comp_def]
  have hle := (h.sound hc).joins_nodup.length_le_of_subset (h.sound hc).joins_expanded
  rw [List.length_map] at hle
  rw [hsections, ← (h.perm_askedKeys hc).countP_eq, hasked]
  exact hle

/-- All bodies that a script begins. -/
theorem ScriptRun.headCount_le (hc : index.Coherent) (h : ScriptRun index entry script p q) :
    headCount (fun _ => true) script.steps ≤ 2 * index.bodies.length := by
  have hall := h.headCount_eq (fun _ => true) hc
  have hjoins := h.countP_join_le hc
  have hle := (h.sound hc).expanded_nodup.length_le_of_subset (h.sound hc).expanded_known
  rw [List.countP_true] at hall
  omega

end Sections

end Linearize

namespace Flow

open Linearize

theorem bodies_length_le_countP (f : Flow) :
    f.index.bodies.length ≤ f.nodes.countP Node.hasBody := by
  have hnodup : f.index.bodies.Nodup :=
    (Assoc.nodup_keys_ofPairs _).sublist (List.filter_sublist.map Prod.fst)
  have hsub : f.index.bodies ⊆ (f.nodes.filter Node.hasBody).map Node.id := by
    intro id hi
    obtain ⟨⟨_, n⟩, hm, rfl⟩ := List.mem_map.mp hi
    obtain ⟨hm, hb⟩ := List.mem_filter.mp hm
    have hn : f.index.node? _ = some n := Assoc.lookup_of_mem (Assoc.nodup_keys_ofPairs _) hm
    obtain ⟨hn, hid⟩ := Index.mem_of_node?_ofGraph hn
    exact List.mem_map.mpr ⟨n, List.mem_filter.mpr ⟨hn, hb⟩, hid⟩
  have hlen := hnodup.length_le_of_subset hsub
  rwa [List.length_map, ← List.countP_eq_length_filter] at hlen

/-- The first step of a body stands at most once outside its join section. It stands twice exactly
when the node has a join section, and that section begins with it and does not hold it again. So all
first steps are at most twice as many as the nodes with a body. -/
theorem heads_linearize (f : Flow) :
    (∀ id, headsOf id (f.linearize.beside id) ≤ 1 ∧ headsOf id f.linearize.steps ≤ 2 ∧
      (headsOf id f.linearize.steps = 2 ↔ ∃ t ∈ f.linearize.sections, t.key = (.join, id)) ∧
      ∀ t ∈ f.linearize.sections, t.key = (.join, id) →
        ∃ s rest, t.steps = s :: rest ∧ s.head? = some id ∧ headsOf id rest = 0) ∧
    headCount (fun _ => true) f.linearize.steps ≤ 2 * f.nodes.countP Node.hasBody := by
  have hc := f.index_coherent
  cases he : f.index.entry with
  | none => simp [f.linearize_of_no_entry he, LinearScript.beside, LinearScript.steps, headsOf]
  | some entry =>
    obtain ⟨p, q, h⟩ : ∃ p q, ScriptRun f.index entry f.linearize p q := scriptRun_linearize hc he
    refine ⟨fun id => ?_, ?_⟩
    · have hbeside := h.headsOf_beside hc id
      have honce := List.nodup_iff_count_le_one.mp (h.sound hc).expanded_nodup id
      refine ⟨by omega, ?_, ?_, h.join_of_key hc⟩
      · rcases h.headsOf_cases hc id with ⟨htwo, -⟩ | ⟨hone, -⟩ <;> omega
      · rcases h.headsOf_cases hc id with ⟨htwo, hj⟩ | ⟨hone, hj⟩
        · exact iff_of_true htwo hj
        · exact iff_of_false (by omega) hj
    · exact Nat.le_trans (h.headCount_le hc) (Nat.mul_le_mul_left 2 f.bodies_length_le_countP)

end Flow

end StoryFlow
