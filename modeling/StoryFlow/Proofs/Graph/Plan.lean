import StoryFlow.Proofs.Graph.Index

/-! # Plans

Every node is written out in one way: it may ask for the section of a hub, it writes its opening,
then its arms, each of which has steps in front and edges to follow, and then its closing. A plan
holds these parts, so that what is proved about plans holds of all kinds of nodes.
-/

namespace StoryFlow.Linearize

/-- Steps, and the edges that are followed after them. -/
structure Arm where
  heads : List Step
  edges : List Edge

structure Plan where
  hub : Option (String × Hub)
  opening : List Step
  arms : List Arm
  closing : List Step

def choiceArms (index : Index) (id : String) (i : Nat) (rs : List Response) : List Arm :=
  (rs.zipIdx i).map fun (r, i) => ⟨[.choice id r i], index.outgoingAt id r.pin⟩

def branchArms (index : Index) (id : String) (b : Branching) (i : Nat) (cs : List Case) :
    List Arm :=
  (cs.zipIdx i).map fun (c, i) => ⟨[.conditionBranch id b c i], index.outgoingAt id (c.pin i)⟩

def jumpTarget (index : Index) (id : String) (j : Jump) : String :=
  match j.flowShortcut with
  | some shortcut => Text.identifier shortcut
  | none => ((jumpHub index id j).map fun p => p.2.labelAt p.1).getD "unknown"

/-- The hub whose section a jump asks for. -/
def jumpAsks (index : Index) (id : String) (j : Jump) : Option (String × Hub) :=
  if j.flowShortcut = none then jumpHub index id j else none

def plan (index : Index) (node : Node) : Plan :=
  let id := node.id
  let onward : List Arm := [⟨[], index.outgoing id⟩]
  match node.body with
  | .entry => ⟨none, [], onward, []⟩
  | .exit _ => ⟨none, [.exit id], [], []⟩
  | .dialogue d =>
    if d.responses.isEmpty then ⟨none, [.dialogue id d], onward, []⟩
    else ⟨none, [.dialogue id d, .choicesStart id], choiceArms index id 0 d.responses,
      [.choicesEnd id]⟩
  | .branching b =>
    ⟨none, [.conditionStart id b], branchArms index id b 0 b.cases, [.conditionEnd id b]⟩
  | .instruction assignments => ⟨none, [.instruction id assignments], onward, []⟩
  | .scene s => ⟨none, [.scene id s], onward, []⟩
  | .subflow s => ⟨none, [.subflow id s], onward, []⟩
  | .hub h => ⟨some (id, h), [.divert (h.labelAt id)], [], []⟩
  | .jump j => ⟨jumpAsks index id j, [.jump id j (jumpTarget index id j)], [], []⟩
  | .unknown => ⟨none, [], [], []⟩

def ask (hub : Option (String × Hub)) (p : Progress) : Progress :=
  hub.elim p fun (id, h) => p.addHub id h

def arms (visit : String → Emit) : List Arm → Emit
  | [], p => ([], p)
  | a :: as, p =>
    let body := follow visit a.edges p
    let rest := arms visit as body.2
    (a.heads ++ (body.1 ++ rest.1), rest.2)

variable {index : Index} {visit : String → Emit}

theorem choices_eq_arms (id : String) (i : Nat) (rs : List Response) (p : Progress) :
    choices index visit id i rs p = arms visit (choiceArms index id i rs) p := by
  induction rs generalizing i p with
  | nil => rfl
  | cons r rs ih => simp [choices, choiceArms, arms, ih]

theorem branches_eq_arms (id : String) (b : Branching) (i : Nat) (cs : List Case) (p : Progress) :
    branches index visit id b i cs p = arms visit (branchArms index id b i cs) p := by
  induction cs generalizing i p with
  | nil => rfl
  | cons c cs ih => simp [branches, branchArms, arms, ih]

theorem after_eq_arms (steps : List Step) (edges : List Edge) (p : Progress) :
    after steps (follow visit edges) p =
      (steps ++ (arms visit [⟨[], edges⟩] p).1, (arms visit [⟨[], edges⟩] p).2) := by
  simp [after, arms]

/-- Every node is written out by its plan. -/
theorem expand_eq (node : Node) (p : Progress) :
    expand index visit node p =
      ((plan index node).opening ++
          ((arms visit (plan index node).arms (ask (plan index node).hub p)).1 ++
            (plan index node).closing),
        (arms visit (plan index node).arms (ask (plan index node).hub p)).2) := by
  unfold expand plan
  cases node.body with
  | entry => simp [arms, ask]
  | exit => rfl
  | dialogue d =>
    by_cases hd : d.responses.isEmpty
    · simp [hd, after_eq_arms, ask]
    · simp [hd, choices_eq_arms, ask]
  | branching b => simp [branches_eq_arms, ask]
  | instruction assignments => simp [after_eq_arms, ask]
  | scene s => simp [after_eq_arms, ask]
  | subflow s => simp [after_eq_arms, ask]
  | hub h => rfl
  | jump j =>
    simp only [jumpStep, jumpTarget, jumpAsks, arms]
    cases j.flowShortcut with
    | some shortcut => rfl
    | none => cases jumpHub index node.id j <;> simp [ask]
  | unknown => rfl

variable {n : Node}

theorem plan_hub_of_hub {h : Hub} (hb : n.body = .hub h) :
    (plan index n).hub = some (n.id, h) := by
  simp [plan, hb]

theorem plan_hub_of_jump {j : Jump} (hb : n.body = .jump j) :
    (plan index n).hub = jumpAsks index n.id j := by
  simp [plan, hb]

/-- A plan asks for the section of its node when that is a hub, or of the hub of a jump. -/
theorem plan_hub_eq_some {p : String × Hub} (hp : (plan index n).hub = some p) :
    (∃ h, n.body = .hub h ∧ p = (n.id, h)) ∨
      ∃ j, n.body = .jump j ∧ j.flowShortcut = none ∧ jumpHub index n.id j = some p := by
  cases hb : n.body with
  | hub h =>
    rw [plan_hub_of_hub hb] at hp
    exact Or.inl ⟨h, rfl, (Option.some.inj hp).symm⟩
  | jump j =>
    rw [plan_hub_of_jump hb, jumpAsks] at hp
    split at hp
    · rename_i hj
      exact Or.inr ⟨j, rfl, hj, hp⟩
    · simp at hp
  | dialogue d =>
    simp only [plan, hb] at hp
    split at hp <;> simp at hp
  | entry | exit | branching | instruction | scene | subflow | unknown => simp [plan, hb] at hp

end StoryFlow.Linearize
