import StoryFlow.Proofs.Graph.Within

/-! # Brackets of scripts

The steps of a script are well bracketed: a start is closed by the end of the same node, and
between them stand the responses or cases of that node in their order, each with steps that are
well bracketed themselves.
-/

namespace StoryFlow

/-- What a step means for the brackets around it. -/
inductive Role where
  | plain | start | arm | stop
deriving DecidableEq

def Step.role : Step → Role
  | .choicesStart _ | .conditionStart _ _ => .start
  | .choice _ _ _ | .conditionBranch _ _ _ _ => .arm
  | .choicesEnd _ | .conditionEnd _ _ => .stop
  | .dialogue _ _ | .instruction _ _ | .scene _ _ | .subflow _ _ | .jump _ _ _ | .divert _
  | .exit _ => .plain

def choiceHeads (id : String) (d : Dialogue) : List Step :=
  d.responses.zipIdx.map fun (r, i) => .choice id r i

/-- The steps that a branching tells its cases by, from a position on. -/
def branchHeads (id : String) (b : Branching) (i : Nat) (cs : List Case) : List Step :=
  (cs.zipIdx i).map fun (c, i) => .conditionBranch id b c i

/-- What steps make up: whole blocks, or arms that begin with the given steps. -/
inductive Shape where
  | block
  | arms (heads : List Step)

/-- Steps are well bracketed for the nodes of an index. -/
inductive Bracketed (index : Index) : Shape → List Step → Prop where

  | nil : Bracketed index .block []

  | plain {s} : s.role = .plain → Bracketed index .block [s]

  | append {ss ts} : Bracketed index .block ss → Bracketed index .block ts →
      Bracketed index .block (ss ++ ts)

  | choices {n d ss} : index.node? n.id = some n → n.body = .dialogue d →
      Bracketed index (.arms (choiceHeads n.id d)) ss →
      Bracketed index .block (.choicesStart n.id :: (ss ++ [.choicesEnd n.id]))

  | condition {n b ss} : index.node? n.id = some n → n.body = .branching b →
      Bracketed index (.arms (branchHeads n.id b 0 b.cases)) ss →
      Bracketed index .block (.conditionStart n.id b :: (ss ++ [.conditionEnd n.id b]))

  | noArm : Bracketed index (.arms []) []

  | arm {h hs ss ts} : Bracketed index .block ss → Bracketed index (.arms hs) ts →
      Bracketed index (.arms (h :: hs)) (h :: (ss ++ ts))

theorem role_of_mem_choiceHeads {id : String} {d : Dialogue} :
    ∀ h ∈ choiceHeads id d, h.role = .arm := by
  intro h hm
  obtain ⟨a, _, rfl⟩ := List.mem_map.mp hm
  rfl

theorem role_of_mem_branchHeads {id : String} {b : Branching} {i : Nat} {cs : List Case} :
    ∀ h ∈ branchHeads id b i cs, h.role = .arm := by
  intro h hm
  obtain ⟨a, _, rfl⟩ := List.mem_map.mp hm
  rfl

section Closed

variable {index : Index} {s : Step} {ss ts : List Step}

/-- A bracket is closed by the end of the same node. -/
def Step.ClosedBy : Step → Step → Prop
  | .choicesStart id, t => t = .choicesEnd id
  | .conditionStart id b, t => t = .conditionEnd id b
  | _, _ => False

/-- Among the steps after a start is its end, and what is between them is well bracketed. -/
def ClosedIn (index : Index) (s : Step) (ss : List Step) : Prop :=
  ∃ inner t rest, ss = inner ++ t :: rest ∧ s.ClosedBy t ∧
    Bracketed index .block (s :: (inner ++ [t]))

theorem ClosedIn.append (h : ClosedIn index s ss) (ts : List Step) :
    ClosedIn index s (ss ++ ts) := by
  obtain ⟨inner, t, rest, rfl, ht, hb⟩ := h
  exact ⟨inner, t, rest ++ ts, by simp, ht, hb⟩

def StartsClosed (index : Index) : List Step → Prop
  | [] => True
  | s :: ss => (s.role = .start → ClosedIn index s ss) ∧ StartsClosed index ss

theorem StartsClosed.append (hs : StartsClosed index ss) (ht : StartsClosed index ts) :
    StartsClosed index (ss ++ ts) := by
  induction ss with
  | nil => exact ht
  | cons s ss ih => exact ⟨fun h => (hs.1 h).append ts, ih hs.2⟩

theorem StartsClosed.closedIn {pre post : List Step} (h : StartsClosed index (pre ++ s :: post))
    (hs : s.role = .start) : ClosedIn index s post := by
  induction pre with
  | nil => exact h.1 hs
  | cons a pre ih => exact ih h.2

theorem startsClosed_bracket {t : Step} (ht : t.role = .stop) (hc : s.ClosedBy t)
    (hb : Bracketed index .block (s :: (ss ++ [t]))) (h : StartsClosed index ss) :
    StartsClosed index (s :: (ss ++ [t])) :=
  ⟨fun _ => ⟨ss, t, [], rfl, hc, hb⟩, h.append ⟨fun h => by simp [ht] at h, trivial⟩⟩

/-- What well bracketed steps open they close. -/
theorem Bracketed.startsClosed {shape : Shape} (h : Bracketed index shape ss)
    (hh : ∀ heads, shape = .arms heads → ∀ h ∈ heads, h.role = .arm) : StartsClosed index ss := by
  induction h with
  | nil | noArm => trivial
  | plain hs => exact ⟨fun h => by simp [hs] at h, trivial⟩
  | append _ _ ih ih' => exact (ih (by simp)).append (ih' (by simp))
  | choices hn hb h ih =>
    refine startsClosed_bracket rfl rfl (.choices hn hb h) (ih ?_)
    rintro heads ⟨rfl⟩
    exact role_of_mem_choiceHeads
  | condition hn hb h ih =>
    refine startsClosed_bracket rfl rfl (.condition hn hb h) (ih ?_)
    rintro heads ⟨rfl⟩
    exact role_of_mem_branchHeads
  | @arm h hs ss ts _ _ ih ih' =>
    obtain ⟨hr, hrs⟩ := List.forall_mem_cons.mp (hh _ rfl)
    refine ⟨fun h => by simp [hr] at h, (ih (by simp)).append (ih' ?_)⟩
    rintro heads ⟨rfl⟩
    exact hrs

end Closed

namespace Linearize

variable {index : Index} {path : List String} {task : Task} {p q : Progress} {ss : List Step}

/-- The steps of a task are well bracketed. Arms are so when each begins with one step, and make up
a block when none of them begins with any. -/
def Task.Brackets (index : Index) (ss : List Step) : Task → Prop
  | .arms as =>
    (∀ heads : List Step, as.map Arm.heads = heads.map ([·]) → Bracketed index (.arms heads) ss) ∧
      ((∀ a ∈ as, a.heads = []) → Bracketed index .block ss)
  | _ => Bracketed index .block ss

theorem heads_choiceArms (id : String) (d : Dialogue) :
    (choiceArms index id 0 d.responses).map Arm.heads = (choiceHeads id d).map ([·]) := by
  simp [choiceArms, choiceHeads, Function.comp_def]

theorem heads_branchArms (id : String) (b : Branching) :
    (branchArms index id b 0 b.cases).map Arm.heads = (branchHeads id b 0 b.cases).map ([·]) := by
  simp [branchArms, branchHeads, Function.comp_def]

theorem brackets_expand {node : Node} (hn : index.node? node.id = some node)
    (h : (Task.arms (plan index node).arms).Brackets index ss) :
    Bracketed index .block
      ((plan index node).opening ++ (ss ++ (plan index node).closing)) := by
  obtain ⟨harms, hblock⟩ := h
  unfold plan at *
  cases hb : node.body with
  | dialogue d =>
    simp only [hb] at harms hblock ⊢
    by_cases hd : d.responses.isEmpty
    · simp only [hd, if_true] at harms hblock ⊢
      rw [List.append_nil]
      exact .append (.plain rfl) (hblock (by simp))
    · simp only [hd] at harms hblock ⊢
      have hd : Bracketed index .block [.dialogue node.id d] := .plain rfl
      exact hd.append (.choices hn hb (harms _ (heads_choiceArms _ _)))
  | branching b =>
    simp only [hb] at harms hblock ⊢
    exact .condition hn hb (harms _ (heads_branchArms _ _))
  | entry | unknown =>
    simp only [hb] at hblock ⊢
    simpa using hblock (by simp)
  | exit | instruction | scene | subflow | hub | jump =>
    simp only [hb] at hblock ⊢
    rw [List.append_nil]
    exact .append (.plain rfl) (hblock (by simp))

theorem Run.brackets (hc : index.Coherent) (h : Run index path task p ss q)
    (hk : task.Known index) : task.Brackets index ss := by
  induction h with
  | missing | noEdge => exact .nil
  | @onPath path id node p hn =>
    change Bracketed index .block (closing node)
    unfold closing
    cases node.hub? with
    | none => exact .nil
    | some h => exact .plain rfl
  | shared => exact .plain rfl
  | entered hn _ _ _ ih =>
    obtain rfl := hc.node_id hn
    exact ih hn
  | edge _ _ ih ih' => exact .append (ih trivial) (ih' trivial)
  | noArm =>
    refine ⟨fun heads hh => ?_, fun _ => .nil⟩
    obtain rfl : heads = [] := by simpa using hh.symm
    exact .noArm
  | @arm path a as p ss q ts r _ _ ih ih' =>
    have hbody : Bracketed index .block ss := ih trivial
    obtain ⟨harms, hblock⟩ := ih' trivial
    constructor
    · intro heads hh
      cases heads with
      | nil => simp at hh
      | cons h hs =>
        obtain ⟨ha, has⟩ := List.cons.inj hh
        rw [ha, List.singleton_append]
        exact .arm hbody (harms hs has)
    · intro hh
      obtain ⟨ha, has⟩ := List.forall_mem_cons.mp hh
      rw [ha, List.nil_append]
      exact .append hbody (hblock has)
  | expand _ ih => exact brackets_expand hk (ih trivial)

theorem SectionRun.brackets (hc : index.Coherent) {pending : Pending} {s : Section}
    (h : SectionRun index pending p s q) (ha : Asked index p pending) :
    Bracketed index .block s.steps := by
  cases h with
  | hub h => exact h.brackets hc trivial
  | join h => exact h.brackets hc ha.2.1

theorem ScriptRun.brackets (hc : index.Coherent) {entry : Node} {script : LinearScript}
    (h : ScriptRun index entry script p q) :
    Bracketed index .block script.main ∧ ∀ s ∈ script.sections, Bracketed index .block s.steps := by
  refine ⟨h.main.brackets hc trivial, fun s hs => ?_⟩
  obtain ⟨pending, p, q, hr, ha, -⟩ := h.written hc s hs
  exact hr.brackets hc ha

end Linearize

/-- The bodies of a script: its main steps and those of its sections. -/
def LinearScript.bodies (s : LinearScript) : List (List Step) :=
  s.main :: s.sections.map Section.steps

/-- Every body of the script of a flow is well bracketed. -/
theorem Flow.bracketed_bodies (f : Flow) :
    ∀ ss ∈ f.linearize.bodies, Bracketed f.index .block ss := by
  have hbodies : Bracketed f.index .block f.linearize.main ∧
      ∀ s ∈ f.linearize.sections, Bracketed f.index .block s.steps := by
    cases he : f.index.entry with
    | none => simp [f.linearize_of_no_entry he, Bracketed.nil]
    | some entry =>
      obtain ⟨p, q, h⟩ := Linearize.scriptRun_linearize f.index_coherent he
      exact h.brackets f.index_coherent
  rw [LinearScript.bodies, List.forall_mem_cons, List.forall_mem_map]
  exact hbodies

end StoryFlow
