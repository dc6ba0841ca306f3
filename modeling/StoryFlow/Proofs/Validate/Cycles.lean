import Mathlib.Data.List.Nodup
import Mathlib.Logic.Relation
import StoryFlow.Proofs.Assoc
import StoryFlow.Proofs.Validate.Checks

/-! # The search for cycles of subflows

The search asks of a flow whether it leads into a cycle. It stops at a flow that is open on its path,
which then lies on a cycle, and at one whose answer is known; otherwise it asks the flows that the
subflows lead to, and keeps the answer. The flows of a path differ and all of them but the last have
subflows, so the search ends. Answers are kept only when all flows behind them have been asked, so
every known answer is right, also while other flows are still open.
-/

namespace StoryFlow.Validate

section Cycles

variable {α : Type} {r : α → α → Prop} {a b : α}

/-- Steps lead from an element to one that lies on a cycle. -/
def LeadsIntoCycle (r : α → α → Prop) (a : α) : Prop :=
  ∃ b, Relation.ReflTransGen r a b ∧ Relation.TransGen r b b

theorem LeadsIntoCycle.of_cycle (h : Relation.TransGen r a a) : LeadsIntoCycle r a :=
  ⟨a, .refl, h⟩

theorem LeadsIntoCycle.head (hab : r a b) (hb : LeadsIntoCycle r b) : LeadsIntoCycle r a := by
  obtain ⟨c, hbc, hc⟩ := hb
  exact ⟨c, hbc.head hab, hc⟩

theorem leadsIntoCycle_iff : LeadsIntoCycle r a ↔ ∃ b, r a b ∧ LeadsIntoCycle r b := by
  refine ⟨?_, fun ⟨b, hab, hb⟩ => hb.head hab⟩
  rintro ⟨c, hac, hc⟩
  rcases hac.cases_head with rfl | ⟨b, hab, hbc⟩
  · -- the element lies on a cycle itself, and so does the next one
    obtain ⟨b, hab, hba⟩ := Relation.TransGen.head'_iff.mp hc
    exact ⟨b, hab, .of_cycle (Relation.TransGen.tail' hba hab)⟩
  · exact ⟨b, hab, c, hbc, hc⟩

end Cycles

/-- The flows that a flow leads to. -/
def targetsIn (graph : List (String × List String)) (id : String) : List String :=
  (graph.lookup id).getD []

/-- A flow leads to another by a subflow. -/
def Leads (graph : List (String × List String)) (a b : String) : Prop :=
  b ∈ targetsIn graph a

/-- What the search is asked: whether a flow leads into a cycle, or whether one of some flows does. -/
inductive Query where
  | one (id : String)
  | any (ids : List String)

def Query.ids : Query → List String
  | one id => [id]
  | any ids => ids

theorem Query.exists_one {q : String → Prop} {id : String} : (∃ a ∈ (one id).ids, q a) ↔ q id := by
  simp [ids]

/-- The search answers a query on a path, with what is known before and after it. -/
inductive Search (graph : List (String × List String)) :
    List String → Query → Known → Bool → Known → Prop where
  | onPath {path id known} : id ∈ path → Search graph path (.one id) known true known
  | known {path id known answer} : id ∉ path → known.lookup id = some answer →
      Search graph path (.one id) known answer known
  | asked {path id known answer known'} : id ∉ path → known.lookup id = none →
      Search graph (id :: path) (.any (targetsIn graph id)) known answer known' →
      Search graph path (.one id) known answer ((id, answer) :: known')
  | done {path known} : Search graph path (.any []) known false known
  | next {path id ids known first known' rest known''} :
      Search graph path (.one id) known first known' →
      Search graph path (.any ids) known' rest known'' →
      Search graph path (.any (id :: ids)) known (first || rest) known''

/-- All known answers are right. -/
def Sound (graph : List (String × List String)) (known : Known) : Prop :=
  ∀ id answer, known.lookup id = some answer →
    (answer = true ↔ LeadsIntoCycle (Leads graph) id)

section Search

variable {graph : List (String × List String)} {path ids : List String} {id : String}
  {query : Query} {known known' known₁ known₂ : Known} {answer answer₁ answer₂ : Bool}

theorem Sound.nil (graph : List (String × List String)) : Sound graph [] :=
  fun _ _ h => nomatch h

theorem Sound.cons (h : Sound graph known) (ha : answer = true ↔ LeadsIntoCycle (Leads graph) id) :
    Sound graph ((id, answer) :: known) := by
  intro other answer' ho
  rw [Assoc.lookup_cons_ite] at ho
  split at ho
  · rename_i he
    obtain rfl := Option.some.inj ho
    exact he ▸ ha
  · exact h other answer' ho

/-- One query has one answer. -/
theorem Search.det (h : Search graph path query known answer₁ known₁)
    (h' : Search graph path query known answer₂ known₂) : answer₁ = answer₂ ∧ known₁ = known₂ := by
  induction h generalizing answer₂ known₂ with
  | onPath hp =>
    cases h' with
    | onPath => exact ⟨rfl, rfl⟩
    | known hp' | asked hp' => exact absurd hp hp'
  | known hp hk =>
    cases h' with
    | onPath hp' => exact absurd hp' hp
    | known _ hk' => exact ⟨Option.some.inj (hk.symm.trans hk'), rfl⟩
    | asked _ hk' => exact nomatch hk.symm.trans hk'
  | asked hp hk _ ih =>
    cases h' with
    | onPath hp' => exact absurd hp' hp
    | known _ hk' => exact nomatch hk'.symm.trans hk
    | asked _ _ h' =>
      obtain ⟨rfl, rfl⟩ := ih h'
      exact ⟨rfl, rfl⟩
  | done =>
    cases h'
    exact ⟨rfl, rfl⟩
  | next _ _ ihfirst ihrest =>
    cases h' with
    | next hfirst hrest =>
      obtain ⟨rfl, rfl⟩ := ihfirst hfirst
      obtain ⟨rfl, rfl⟩ := ihrest hrest
      exact ⟨rfl, rfl⟩

/-- Every answer is right, and so is what is kept, where the path leads to the flows in question. -/
theorem Search.sound (h : Search graph path query known answer known') (hk : Sound graph known)
    (hp : ∀ a ∈ path, ∀ id ∈ query.ids, Relation.TransGen (Leads graph) a id) :
    Sound graph known' ∧
      (answer = true ↔ ∃ id ∈ query.ids, LeadsIntoCycle (Leads graph) id) := by
  induction h with
  | @onPath path id known hid =>
    refine ⟨hk, iff_of_true rfl ⟨id, List.mem_singleton_self id, ?_⟩⟩
    exact .of_cycle (hp id hid id (List.mem_singleton_self id))
  | known _ hl =>
    exact ⟨hk, (hk _ _ hl).trans Query.exists_one.symm⟩
  | @asked path id known answer known' _ _ _ ih =>
    have htargets : ∀ a ∈ id :: path, ∀ b ∈ targetsIn graph id,
        Relation.TransGen (Leads graph) a b := by
      intro a ha b hb
      rcases List.mem_cons.mp ha with rfl | ha
      · exact .single hb
      · exact (hp a ha id (List.mem_singleton_self id)).tail hb
    obtain ⟨hk', hanswer⟩ := ih hk htargets
    have hid : answer = true ↔ LeadsIntoCycle (Leads graph) id :=
      hanswer.trans (leadsIntoCycle_iff (r := Leads graph)).symm
    exact ⟨hk'.cons hid, hid.trans Query.exists_one.symm⟩
  | done => exact ⟨hk, by simp [Query.ids]⟩
  | @next path id ids known first known' rest known'' _ _ ihfirst ihrest =>
    have hall : ∀ a ∈ path, ∀ b ∈ id :: ids, Relation.TransGen (Leads graph) a b := hp
    obtain ⟨hk', hfirst⟩ := ihfirst hk fun a ha b hb =>
      hall a ha b (List.mem_singleton.mp hb ▸ List.mem_cons_self)
    obtain ⟨hk'', hrest⟩ := ihrest hk' fun a ha b hb => hall a ha b (List.mem_cons_of_mem id hb)
    refine ⟨hk'', ?_⟩
    rw [Bool.or_eq_true, hfirst, hrest]
    simp [Query.ids]

theorem search_anyLeads {leads : String → Known → Bool × Known} (ids : List String)
    (h : ∀ id ∈ ids, ∀ known, Search graph path (.one id) known (leads id known).1
      (leads id known).2) (known : Known) :
    Search graph path (.any ids) known (anyLeads leads ids known).1
      (anyLeads leads ids known).2 := by
  induction ids generalizing known with
  | nil => exact .done
  | cons id ids ih =>
    rw [List.forall_mem_cons] at h
    exact .next (h.1 known) (ih h.2 _)

/-- A path that can still be prolonged within the depth is searched to its end. -/
theorem search_leadsToCycle {depth : Nat} (hn : path.Nodup) (hs : path ⊆ graph.map Prod.fst)
    (hd : graph.length < depth + path.length) (id : String) (known : Known) :
    Search graph path (.one id) known (leadsToCycle graph depth path id known).1
      (leadsToCycle graph depth path id known).2 := by
  induction depth generalizing path id known with
  | zero =>
    have hle := hn.length_le_of_subset hs
    rw [List.length_map] at hle
    omega
  | succ depth ih =>
    rw [leadsToCycle]
    split
    · rename_i hp
      exact .onPath hp
    · rename_i hp
      split
      · rename_i hk
        exact .known hp hk
      · rename_i hk
        refine .asked hp hk (search_anyLeads _ (fun target ht known => ?_) known)
        have hid : id ∈ graph.map Prod.fst := by
          rw [← Assoc.lookup_isSome_iff]
          cases hl : graph.lookup id with
          | none => simp [targetsIn, hl] at ht
          | some targets => rfl
        refine ih (List.nodup_cons.mpr ⟨hp, hn⟩) (List.cons_subset.mpr ⟨hid, hs⟩) ?_ target known
        rw [List.length_cons]
        omega

/-- The search ends on every graph, from every flow and with whatever is known, in its answer. -/
theorem search_iff : Search graph [] (.one id) known answer known' ↔
    leadsToCycle graph (graph.length + 2) [] id known = (answer, known') := by
  have h : Search graph [] (.one id) known (leadsToCycle graph (graph.length + 2) [] id known).1
      (leadsToCycle graph (graph.length + 2) [] id known).2 :=
    search_leadsToCycle List.nodup_nil (List.nil_subset _) (by simp) id known
  constructor
  · intro h'
    obtain ⟨hanswer, hknown⟩ := h.det h'
    exact Prod.ext hanswer hknown
  · intro he
    rwa [he] at h

open Classical in
/-- Asked one after another, the flows are found that lead into a cycle. -/
theorem circular_eq (hk : Sound graph known) (ids : List String) :
    circular graph ids known = ids.filter (LeadsIntoCycle (Leads graph) ·) := by
  induction ids generalizing known with
  | nil => rfl
  | cons id ids ih =>
    have hrun : Search graph [] (.one id) known (leadsToCycle graph (graph.length + 2) [] id known).1
        (leadsToCycle graph (graph.length + 2) [] id known).2 := search_iff.mpr rfl
    obtain ⟨hsound, hanswer⟩ := hrun.sound hk fun a ha => absurd ha List.not_mem_nil
    have hid := hanswer.trans Query.exists_one
    rw [circular, List.filter_cons, ih hsound]
    simp only [decide_eq_true_eq, ← hid]

end Search

/-! ## Subflows -/

/-- A subflow in the flow with one id leads to another id. -/
def Enters (flows : List Flow) (a b : String) : Prop :=
  ∃ f ∈ flows, f.id = a ∧ ∃ n ∈ f.nodes, ∃ s, n.subflow? = some s ∧ s.flowId = some b

section Flows

variable {flows : List Flow} {f : Flow} {a b id : String}

theorem mem_subflowTargets :
    b ∈ subflowTargets f ↔ ∃ n ∈ f.nodes, ∃ s, n.subflow? = some s ∧ s.flowId = some b := by
  simp only [subflowTargets, List.mem_filterMap, Option.bind_eq_some_iff]

/-- With distinct ids, the graph has the flows with subflows in their order. -/
theorem subflowGraph_eq (hd : (flows.map Flow.id).Nodup) : subflowGraph flows =
    (flows.filter fun f => !(subflowTargets f).isEmpty).map fun f => (f.id, subflowTargets f) := by
  have hpairs : (flows.map fun f => (f.id, subflowTargets f)).filter (fun p => !p.2.isEmpty) =
      (flows.filter fun f => !(subflowTargets f).isEmpty).map fun f => (f.id, subflowTargets f) :=
    List.filter_map
  rw [subflowGraph, hpairs]
  apply Assoc.ofPairs_eq_self
  rw [List.map_map]
  exact hd.sublist (List.filter_sublist.map Flow.id)

theorem leads_subflowGraph (hd : (flows.map Flow.id).Nodup) :
    Leads (subflowGraph flows) a b ↔ Enters flows a b := by
  have hnodup : ((subflowGraph flows).map Prod.fst).Nodup := Assoc.nodup_keys_ofPairs _
  constructor
  · intro h
    cases hl : (subflowGraph flows).lookup a with
    | none => simp [Leads, targetsIn, hl] at h
    | some targets =>
      have hm := Assoc.mem_of_lookup hl
      rw [subflowGraph_eq hd, List.mem_map] at hm
      obtain ⟨f, hf, he⟩ := hm
      obtain ⟨rfl, rfl⟩ := Prod.mk.inj he
      rw [Leads, targetsIn, hl] at h
      exact ⟨f, (List.mem_filter.mp hf).1, rfl, mem_subflowTargets.mp h⟩
  · rintro ⟨f, hf, rfl, hb⟩
    have hb := mem_subflowTargets.mpr hb
    have hm : (f.id, subflowTargets f) ∈ subflowGraph flows := by
      rw [subflowGraph_eq hd]
      refine List.mem_map_of_mem (List.mem_filter.mpr ⟨hf, ?_⟩)
      simpa using List.ne_nil_of_mem hb
    rwa [Leads, targetsIn, Assoc.lookup_of_mem hnodup hm]

theorem find?_reverse_of_mem (hd : (flows.map Flow.id).Nodup) (hf : f ∈ flows) :
    flows.reverse.find? (·.id == f.id) = some f := by
  have hsome : (flows.reverse.find? (·.id == f.id)).isSome :=
    List.find?_isSome.mpr ⟨f, List.mem_reverse.mpr hf, beq_self_eq_true f.id⟩
  obtain ⟨g, hg⟩ := Option.isSome_iff_exists.mp hsome
  have hid : g.id = f.id := by simpa using List.find?_some hg
  rw [hg, List.inj_on_of_nodup_map hd (List.mem_reverse.mp (List.mem_of_find?_eq_some hg)) hf hid]

open Classical in
theorem circularSubflows_eq (hd : (flows.map Flow.id).Nodup) : circularSubflows flows =
    (flows.filter fun f => LeadsIntoCycle (Enters flows) f.id).map fun f =>
      .circularSubflow f.ref := by
  have hleads : Leads (subflowGraph flows) = Enters flows :=
    funext fun a => funext fun b => propext (leads_subflowGraph hd)
  have hkeys : (subflowGraph flows).map Prod.fst =
      (flows.filter fun f => !(subflowTargets f).isEmpty).map Flow.id := by
    rw [subflowGraph_eq hd, List.map_map]
    rfl
  -- a flow that leads into a cycle has subflows
  have hfilter : (flows.filter fun f => !(subflowTargets f).isEmpty).filter
      (fun f => LeadsIntoCycle (Enters flows) f.id) =
        flows.filter fun f => LeadsIntoCycle (Enters flows) f.id := by
    rw [List.filter_filter]
    refine List.filter_congr fun f hf => ?_
    rw [Bool.and_eq_left_iff_imp, decide_eq_true_eq, leadsIntoCycle_iff]
    rintro ⟨b, ⟨g, hg, hid, hb⟩, -⟩
    obtain rfl := List.inj_on_of_nodup_map hd hg hf hid
    simpa using List.ne_nil_of_mem (mem_subflowTargets.mpr hb)
  rw [circularSubflows, hkeys]
  dsimp only
  rw [circular_eq (.nil _), hleads, List.filter_map, List.map_map]
  have hcomp : (fun f : Flow => decide (LeadsIntoCycle (Enters flows) f.id)) =
      (fun id => decide (LeadsIntoCycle (Enters flows) id)) ∘ Flow.id := rfl
  rw [← hcomp, hfilter]
  refine List.map_congr_left fun f hf => ?_
  have hname := find?_reverse_of_mem hd (List.mem_filter.mp hf).1
  simp [hname, Flow.ref]

end Flows

end StoryFlow.Validate

namespace StoryFlow

open Validate

open Classical in
/-- With distinct ids, exactly the flows from which subflows lead into a cycle are reported, once
each and in their order. The search behind the report ends on every graph, in one answer. -/
theorem Project.circular_subflows_reported (p : Project) (hd : (p.flows.map Flow.id).Nodup) :
    p.validate.findings.filter (·.check = "circular_subflows") =
        (p.flows.filter fun f => LeadsIntoCycle (Enters p.flows) f.id).map (fun f =>
          .circularSubflow f.ref) ∧
      ∀ graph id known answer known', Search graph [] (.one id) known answer known' ↔
        leadsToCycle graph (graph.length + 2) [] id known = (answer, known') := by
  have hc : ("circular_subflows", circularSubflows p.flows) ∈ p.checks := by simp [checks]
  refine ⟨?_, fun graph id known answer known' => search_iff⟩
  rw [← circularSubflows_eq hd]
  exact filter_check hc

/-- A flow whose subflows lead to some flows. -/
def Flow.calling (id : String) (targets : List String) : Flow where
  id := id
  shortcut := none
  name := "Flow " ++ id
  description := none
  parentId := none
  isMain := false
  settings := []
  nodes := .ofStored "start" "entry" [] none none :: targets.map fun target =>
    .ofStored ("to_" ++ target) "subflow" [("target_flow_id", .str target)] none none
  connections := []

/-- Two flows that call each other, one that leads to them, and one that leads to a flow that is not
there. -/
def Project.carousel : Project :=
  ⟨⟨"1", "Carousel", none, none, []⟩, [], [.calling "1" ["4", "2"], .calling "2" ["1"],
    .calling "3" ["4", "1"], .calling "4" ["5"]], [], [], .empty, []⟩

open Classical in
theorem Project.carousel_reported : (carousel.flows.map Flow.id).Nodup ∧
    ((carousel.flows.filter fun f => LeadsIntoCycle (Enters carousel.flows) f.id).map fun f =>
      Finding.circularSubflow f.ref) = [.circularSubflow ⟨"1", "Flow 1"⟩,
        .circularSubflow ⟨"2", "Flow 2"⟩, .circularSubflow ⟨"3", "Flow 3"⟩] := by
  have hd : (carousel.flows.map Flow.id).Nodup := by decide
  refine ⟨hd, (carousel.circular_subflows_reported hd).1.symm.trans ?_⟩
  decide +kernel

end StoryFlow
