import StoryFlow.Proofs.Graph.Within

/-! # Where steps come from

What holds of the plans of all nodes, and of diverts, holds of the whole script of a flow. So the
jumps and the subflows of a script are those of the flow's nodes.
-/

namespace StoryFlow

/-- A jump or a subflow is that of a node of the list. -/
def Step.ComesFrom (nodes : List Node) : Step → Prop
  | .subflow id s => ∃ n ∈ nodes, n.id = id ∧ n.body = .subflow s
  | .jump id j _ => ∃ n ∈ nodes, n.id = id ∧ n.body = .jump j
  | _ => True

/-- Does the step lead on by a name? -/
def Step.IsTransfer : Step → Prop
  | .subflow .. | .jump .. => True
  | _ => False

namespace Linearize

variable {index : Index} {path : List String} {task : Task} {p q : Progress} {ss : List Step}
  {P : Step → Prop}

/-- A predicate holds of all steps that a plan writes. -/
structure Plan.All (P : Step → Prop) (plan : Plan) : Prop where
  opening : ∀ s ∈ plan.opening, P s
  closing : ∀ s ∈ plan.closing, P s
  heads : ∀ a ∈ plan.arms, ∀ s ∈ a.heads, P s

/-- A predicate holds of the steps in front of the arms that are before the traversal. -/
def Task.HeadsAll (P : Step → Prop) : Task → Prop
  | .arms as => ∀ a ∈ as, ∀ s ∈ a.heads, P s
  | _ => True

theorem Run.forall_steps (hc : index.Coherent) (hd : ∀ label, P (.divert label))
    (hp : ∀ n, index.node? n.id = some n → (plan index n).All P)
    (h : Run index path task p ss q) (hk : task.Known index) (hh : task.HeadsAll P) :
    ∀ s ∈ ss, P s := by
  induction h with
  | missing | noEdge | noArm => simp
  | onPath => simp [closing, hd]
  | shared => simp [hd]
  | entered hn _ _ _ ih =>
    obtain rfl := hc.node_id hn
    exact ih hn trivial
  | edge _ _ ih ih' =>
    exact List.forall_mem_append.mpr ⟨ih trivial trivial, ih' trivial trivial⟩
  | arm _ _ ih ih' =>
    obtain ⟨hheads, hrest⟩ := List.forall_mem_cons.mp hh
    exact List.forall_mem_append.mpr
      ⟨hheads, List.forall_mem_append.mpr ⟨ih trivial trivial, ih' trivial hrest⟩⟩
  | @expand path node p ss q _ ih =>
    have hn := hp node hk
    exact List.forall_mem_append.mpr
      ⟨hn.opening, List.forall_mem_append.mpr ⟨ih trivial hn.heads, hn.closing⟩⟩

theorem SectionRun.forall_steps (hc : index.Coherent) (hd : ∀ label, P (.divert label))
    (hp : ∀ n, index.node? n.id = some n → (plan index n).All P) {pending : Pending} {s : Section}
    (h : SectionRun index pending p s q) (ha : Asked index p pending) : ∀ t ∈ s.steps, P t := by
  cases h with
  | hub h => exact h.forall_steps hc hd hp trivial trivial
  | join h => exact h.forall_steps hc hd hp ha.2.1 trivial

theorem ScriptRun.forall_steps (hc : index.Coherent) (hd : ∀ label, P (.divert label))
    (hp : ∀ n, index.node? n.id = some n → (plan index n).All P) {entry : Node}
    {script : LinearScript} (h : ScriptRun index entry script p q) :
    ∀ s ∈ script.steps, P s := by
  refine List.forall_mem_append.mpr ⟨h.main.forall_steps hc hd hp trivial trivial, ?_⟩
  intro s hs
  obtain ⟨t, ht, hs⟩ := List.mem_flatMap.mp hs
  obtain ⟨pending, _, _, hr, ha, -⟩ := h.written hc t ht
  exact hr.forall_steps hc hd hp ha s hs

/-- What holds of all steps but the jumps and subflows holds of a plan if it holds of its own. -/
theorem plan_all (index : Index) (n : Node) (hplain : ∀ s : Step, ¬ s.IsTransfer → P s)
    (hs : ∀ s, n.body = .subflow s → P (.subflow n.id s))
    (hj : ∀ j, n.body = .jump j → P (.jump n.id j (jumpTarget index n.id j))) :
    (plan index n).All P := by
  have hnone : ∀ s ∈ ([] : List Step), P s := by simp
  unfold plan
  cases hb : n.body with
  | dialogue d =>
    by_cases hd : d.responses.isEmpty
    · simp only [hd, if_true]
      exact ⟨List.forall_mem_singleton.mpr (hplain _ id), hnone, by simp⟩
    · simp only [hd]
      refine ⟨?_, List.forall_mem_singleton.mpr (hplain _ id), ?_⟩
      · exact List.forall_mem_cons.mpr ⟨hplain _ id, List.forall_mem_singleton.mpr (hplain _ id)⟩
      · intro a ha
        obtain ⟨k, r, _, rfl⟩ := mem_choiceArms.mp ha
        exact List.forall_mem_singleton.mpr (hplain _ id)
  | branching b =>
    refine ⟨List.forall_mem_singleton.mpr (hplain _ id),
      List.forall_mem_singleton.mpr (hplain _ id), ?_⟩
    intro a ha
    obtain ⟨k, c, _, rfl⟩ := mem_branchArms.mp ha
    exact List.forall_mem_singleton.mpr (hplain _ id)
  | subflow s => exact ⟨List.forall_mem_singleton.mpr (hs s hb), hnone, by simp⟩
  | jump j => exact ⟨List.forall_mem_singleton.mpr (hj j hb), hnone, by simp⟩
  | entry | unknown => exact ⟨hnone, hnone, by simp⟩
  | exit | instruction | scene | hub =>
    exact ⟨List.forall_mem_singleton.mpr (hplain _ id), hnone, by simp⟩

end Linearize

namespace Flow

/-- What holds of all steps but the jumps and subflows holds of a script if it holds of those of the
flow's nodes. -/
theorem forall_linearize (f : Flow) {P : Step → Prop} (hplain : ∀ s : Step, ¬ s.IsTransfer → P s)
    (hs : ∀ n ∈ f.nodes, ∀ s, n.body = .subflow s → P (.subflow n.id s))
    (hj : ∀ n ∈ f.nodes, ∀ j, n.body = .jump j →
      P (.jump n.id j (Linearize.jumpTarget f.index n.id j))) :
    ∀ s ∈ f.linearize.steps, P s := by
  have hc := f.index_coherent
  cases he : f.index.entry with
  | none => simp [f.linearize_of_no_entry he, LinearScript.steps]
  | some entry =>
    obtain ⟨p, q, h⟩ := Linearize.scriptRun_linearize hc he
    refine h.forall_steps hc (fun label => hplain (.divert label) not_false) fun n hn => ?_
    have hm := (Index.mem_of_node?_ofGraph hn).1
    exact Linearize.plan_all f.index n hplain (hs n hm) (hj n hm)

/-- The jumps and the subflows of a script are those of the nodes of the flow. -/
theorem comesFrom_linearize (f : Flow) : ∀ s ∈ f.linearize.steps, s.ComesFrom f.nodes := by
  refine f.forall_linearize ?_ (fun n hn s hb => ⟨n, hn, rfl, hb⟩)
    fun n hn j hb => ⟨n, hn, rfl, hb⟩
  intro s hs
  cases s
  case subflow | jump => exact absurd trivial hs
  all_goals trivial

end Flow

end StoryFlow
