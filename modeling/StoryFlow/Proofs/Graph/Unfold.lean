import Mathlib.Logic.Function.Iterate
import StoryFlow.Proofs.Graph.Within

/-! # Unfolding join sections

A divert to a join section can be replaced by the steps of the section. What a traversal without
sharing writes holds no such divert, and when unfolding agrees with it on the nodes that a task
leads to, it agrees on the task.
-/

namespace StoryFlow

namespace LinearScript

variable {script : LinearScript} {s : Step} {ss ts : List Step}

def joinSection? (script : LinearScript) (target : String) : Option Section :=
  script.sections.find? fun s => s.kind = .join ∧ s.label = target

/-- A divert to a join section. -/
def Joins (script : LinearScript) : Step → Prop
  | .divert target => (script.joinSection? target).isSome
  | _ => False

def unfoldStep (script : LinearScript) : Step → List Step
  | .divert target => ((script.joinSection? target).map Section.steps).getD [.divert target]
  | s => [s]

/-- Puts the steps of join sections in the place of the diverts to them, once. -/
def unfold (script : LinearScript) (ss : List Step) : List Step :=
  ss.flatMap script.unfoldStep

theorem unfoldStep_of_not_joins (h : ¬ script.Joins s) : script.unfoldStep s = [s] := by
  cases s with
  | divert target =>
    have hj : script.joinSection? target = none := by
      simpa [Joins] using h
    simp [unfoldStep, hj]
  | _ => rfl

theorem unfold_of_not_joins (h : ∀ s ∈ ss, ¬ script.Joins s) : script.unfold ss = ss := by
  induction ss with
  | nil => rfl
  | cons s ss ih =>
    obtain ⟨hs, hss⟩ := List.forall_mem_cons.mp h
    rw [unfold, List.flatMap_cons, unfoldStep_of_not_joins hs]
    exact congrArg (s :: ·) (ih hss)

theorem iterate_unfold_of_not_joins (h : ∀ s ∈ ss, ¬ script.Joins s) (n : Nat) :
    script.unfold^[n] ss = ss :=
  Function.iterate_fixed (unfold_of_not_joins h) n

theorem iterate_unfold_append (n : Nat) :
    script.unfold^[n] (ss ++ ts) = script.unfold^[n] ss ++ script.unfold^[n] ts := by
  induction n generalizing ss ts with
  | zero => rfl
  | succ n ih =>
    simp only [Function.iterate_succ_apply]
    rw [← ih, unfold, List.flatMap_append]
    rfl

theorem iterate_unfold_divert {target : String} {t : Section}
    (h : script.joinSection? target = some t) (n : Nat) :
    script.unfold^[n + 1] [.divert target] = script.unfold^[n] t.steps := by
  simp [Function.iterate_succ_apply, unfold, unfoldStep, h]

end LinearScript

namespace Linearize

variable {index : Index} {sub : String → List Step} {visits : String → Emit}

/-- Arrives at a node like `visit`, and writes it out however often it was written before. -/
def unshared (index : Index) : Nat → List String → String → Emit
  | 0, _, _, p => ([], p)
  | depth + 1, path, id, p =>
    match index.node? id with
    | none => ([], p)
    | some node =>
      if id ∈ path then
        (node.hub?.toList.map fun h => .divert (h.labelAt id), p)
      else expand index (unshared index depth (id :: path)) node p

section Inlined

def inlineEdges (sub : String → List Step) (es : List Edge) : List Step :=
  es.flatMap fun e => sub e.target

def inlineArms (sub : String → List Step) (as : List Arm) : List Step :=
  as.flatMap fun a => a.heads ++ inlineEdges sub a.edges

def inlineNode (index : Index) (sub : String → List Step) (node : Node) : List Step :=
  (plan index node).opening ++ (inlineArms sub (plan index node).arms ++ (plan index node).closing)

/-- What is written on arrival at a node when nothing is shared. -/
def inlined (index : Index) : Nat → List String → String → List Step
  | 0, _, _ => []
  | depth + 1, path, id =>
    match index.node? id with
    | none => []
    | some node =>
      if id ∈ path then closing node
      else inlineNode index (inlined index depth (id :: path)) node

theorem follow_fst (h : ∀ id p, (visits id p).1 = sub id) (es : List Edge) (p : Progress) :
    (follow visits es p).1 = inlineEdges sub es := by
  induction es generalizing p with
  | nil => rfl
  | cons e es ih => simp [follow, inlineEdges, h, ih]

theorem arms_fst (h : ∀ id p, (visits id p).1 = sub id) (as : List Arm) (p : Progress) :
    (arms visits as p).1 = inlineArms sub as := by
  induction as generalizing p with
  | nil => rfl
  | cons a as ih => simp [arms, inlineArms, follow_fst h, ih]

/-- Without sharing, what is written does not depend on the progress. -/
theorem unshared_fst (hc : index.Coherent) (depth : Nat) (path : List String) (id : String)
    (p : Progress) : (unshared index depth path id p).1 = inlined index depth path id := by
  induction depth generalizing path id p with
  | zero => rfl
  | succ depth ih =>
    rw [unshared, inlined]
    split
    · rfl
    · rename_i node hn
      obtain rfl := hc.node_id hn
      split
      · rfl
      · rw [expand_eq]
        simp only [arms_fst (ih _)]
        rfl

end Inlined

section Joins

variable {entry : Node} {script : LinearScript} {p q : Progress}

/-- The steps hold no divert to a join section. -/
def Settled (script : LinearScript) (ss : List Step) : Prop :=
  ∀ s ∈ ss, ¬ script.Joins s

theorem Settled.append {ss ts : List Step} (hs : Settled script ss) (ht : Settled script ts) :
    Settled script (ss ++ ts) :=
  List.forall_mem_append.mpr ⟨hs, ht⟩

theorem Settled.flatMap {α : Type} {as : List α} {g : α → List Step}
    (h : ∀ a ∈ as, Settled script (g a)) : Settled script (as.flatMap g) := by
  intro s hs
  obtain ⟨a, ha, hs⟩ := List.mem_flatMap.mp hs
  exact h a ha s hs

/-- A join section is found by its label, and writes out the node that the label was made for. -/
theorem ScriptRun.joinSection (hc : index.Coherent) (h : ScriptRun index entry script p q)
    {target : String} {t : Section} (ht : script.joinSection? target = some t) :
    ∃ node p' q', index.node? node.id = some node ∧ (node.id, target) ∈ q.joinLabels ∧
      Run index [node.id] (.expand node) p' t.steps q' ∧ Extends q' q := by
  have hk := List.find?_some ht
  simp only [decide_eq_true_eq] at hk
  obtain ⟨hk, rfl⟩ := hk
  obtain ⟨pending, p', q', hr, ha, -, hp, hq⟩ := h.written hc t (List.mem_of_find?_eq_some ht)
  cases hr with
  | hub => simp at hk
  | join hr => exact ⟨_, p', q', ha.2.1, hp.joins ha.1, hr, hq⟩

theorem ScriptRun.joinSection?_isSome (hc : index.Coherent)
    (h : ScriptRun index entry script p q) {id target : String}
    (hi : (id, target) ∈ q.joinLabels) : ∃ t, script.joinSection? target = some t := by
  obtain ⟨t, ht, hk, hl, -⟩ := h.join_section hc hi
  rw [← Option.isSome_iff_exists, LinearScript.joinSection?, List.find?_isSome]
  exact ⟨t, ht, by simp [hk, hl]⟩

theorem ScriptRun.joinSection?_fresh (hc : index.Coherent)
    (h : ScriptRun index entry script p q) {target : String} {t : Section}
    (ht : script.joinSection? target = some t) : target ∉ index.hubLabels := by
  obtain ⟨node, _, _, _, hl, _⟩ := h.joinSection hc ht
  exact (h.sound hc).labels_fresh target (List.mem_map.mpr ⟨_, hl, rfl⟩)

theorem ScriptRun.not_joins_hub (hc : index.Coherent) (h : ScriptRun index entry script p q)
    {id : String} {g : Hub} (hg : index.hub? id = some g) :
    ¬ script.Joins (.divert (g.labelAt id)) := by
  intro hj
  obtain ⟨t, ht⟩ := Option.isSome_iff_exists.mp hj
  exact h.joinSection?_fresh hc ht (Index.mem_hubLabels hg)

theorem ScriptRun.settled_plan (hc : index.Coherent) (h : ScriptRun index entry script p q)
    {node : Node} (hn : index.node? node.id = some node) :
    Settled script (plan index node).opening ∧ Settled script (plan index node).closing ∧
      ∀ a ∈ (plan index node).arms, Settled script a.heads := by
  refine plan_forall index ?_ ?_
  · intro s hs hj
    cases s <;> simp_all [Step.node?, LinearScript.Joins]
  · intro g hb
    exact h.not_joins_hub hc (hc.hub_of_node hn hb)

theorem closing_eq_of_hub {node : Node} {g : Hub} (hb : node.body = .hub g) :
    closing node = [.divert (g.labelAt node.id)] := by
  simp [closing, Node.hub?, hb]

/-- A hub is written in the same way on the path and off it. -/
theorem inlineNode_of_hub {node : Node} {g : Hub} (hb : node.body = .hub g) :
    inlineNode index sub node = closing node := by
  rw [closing_eq_of_hub hb]
  simp [inlineNode, plan, hb, inlineArms]

theorem Run.expand_hub {path : List String} {node : Node} {ss : List Step} {g : Hub}
    (h : Run index path (.expand node) p ss q) (hb : node.body = .hub g) :
    ss = closing node := by
  rw [closing_eq_of_hub hb]
  cases h with
  | expand h =>
    simp only [plan, hb] at h ⊢
    cases h
    rfl

theorem ScriptRun.settled_closing (hc : index.Coherent) (h : ScriptRun index entry script p q)
    {node : Node} (hn : index.node? node.id = some node) : Settled script (closing node) := by
  intro s hs
  obtain ⟨g, hg, rfl⟩ := List.mem_map.mp hs
  exact h.not_joins_hub hc (hc.hub_of_node hn (Node.hub?_eq_some_iff.mp (by simpa using hg)))

theorem ScriptRun.settled_inlined (hc : index.Coherent) (h : ScriptRun index entry script p q)
    (depth : Nat) (path : List String) (id : String) :
    Settled script (inlined index depth path id) := by
  induction depth generalizing path id with
  | zero => simp [Settled, inlined]
  | succ depth ih =>
    rw [inlined]
    split
    · simp [Settled]
    · rename_i node hn
      obtain rfl := hc.node_id hn
      split
      · exact h.settled_closing hc hn
      · obtain ⟨ho, hcl, hh⟩ := h.settled_plan hc hn
        refine ho.append (.append (.flatMap fun a ha => (hh a ha).append ?_) hcl)
        exact .flatMap fun e _ => ih _ _

end Joins

section Unfolds

variable {script : LinearScript} {path : List String} {p q last : Progress} {ss : List Step}
  {n : Nat}

theorem Run.unfold_follow (hc : index.Coherent) {es : List Edge}
    (hv : ∀ e ∈ es, ∀ p ss q, Run index path (.visit e.target) p ss q → Extends q last →
      script.unfold^[n] ss = sub e.target)
    (h : Run index path (.follow es) p ss q) (hx : Extends q last) :
    script.unfold^[n] ss = inlineEdges sub es := by
  induction es generalizing p ss with
  | nil =>
    cases h
    exact LinearScript.iterate_unfold_of_not_joins (by simp) n
  | cons e es ih =>
    obtain ⟨he, hes⟩ := List.forall_mem_cons.mp hv
    cases h with
    | edge h h' =>
      rw [LinearScript.iterate_unfold_append, he _ _ _ h ((h'.extends hc trivial).trans hx),
        ih hes h']
      rfl

theorem Run.unfold_arms (hc : index.Coherent) {as : List Arm}
    (hs : ∀ a ∈ as, Settled script a.heads)
    (hv : ∀ e, (∃ a ∈ as, e ∈ a.edges) → ∀ p ss q, Run index path (.visit e.target) p ss q →
      Extends q last → script.unfold^[n] ss = sub e.target)
    (h : Run index path (.arms as) p ss q) (hx : Extends q last) :
    script.unfold^[n] ss = inlineArms sub as := by
  induction as generalizing p ss with
  | nil =>
    cases h
    exact LinearScript.iterate_unfold_of_not_joins (by simp) n
  | cons a as ih =>
    obtain ⟨ha, has⟩ := List.forall_mem_cons.mp hs
    have hva := fun e he => hv e ⟨a, List.mem_cons_self, he⟩
    have hvs := fun e (he : ∃ a ∈ as, e ∈ a.edges) =>
      hv e (he.imp fun _ h => ⟨List.mem_cons_of_mem _ h.1, h.2⟩)
    cases h with
    | arm h h' =>
      rw [LinearScript.iterate_unfold_append, LinearScript.iterate_unfold_append,
        LinearScript.iterate_unfold_of_not_joins ha,
        h.unfold_follow hc hva ((h'.extends hc trivial).trans hx), ih has hvs h']
      simp [inlineArms]

theorem Run.unfold_expand (hc : index.Coherent) {entry node : Node} {first : Progress}
    (hr : ScriptRun index entry script first last) (hn : index.node? node.id = some node)
    (hv : ∀ e, (∃ a ∈ (plan index node).arms, e ∈ a.edges) → ∀ p ss q,
      Run index path (.visit e.target) p ss q → Extends q last →
      script.unfold^[n] ss = sub e.target)
    (h : Run index path (.expand node) p ss q) (hx : Extends q last) :
    script.unfold^[n] ss = inlineNode index sub node := by
  obtain ⟨ho, hcl, hh⟩ := hr.settled_plan hc hn
  cases h with
  | expand h =>
    rw [LinearScript.iterate_unfold_append, LinearScript.iterate_unfold_append,
      LinearScript.iterate_unfold_of_not_joins ho, LinearScript.iterate_unfold_of_not_joins hcl,
      h.unfold_arms hc hh hv hx]
    rfl

end Unfolds

end Linearize

end StoryFlow
