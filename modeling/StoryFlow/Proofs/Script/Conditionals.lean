import StoryFlow.Proofs.Ink.Nesting
import StoryFlow.Proofs.Yarn.Nesting

/-! # Conditionals of scripts

Where a condition begins in a script, the steps of its cases stand one after the other, each with
what the traversal wrote for the edges at the pin of the case. The lines for them are the guards of
the branching in this order, each in front of the lines of one body.
-/

namespace StoryFlow

def Step.BeginsCondition : Step → Prop
  | .conditionStart _ _ => True
  | _ => False

namespace Linearize

/-- The steps that the traversal wrote for the edges of a node at a pin. -/
def Follows (index : Index) (id pin : String) (ss : List Step) : Prop :=
  ∃ path p q, Run index path (.follow (index.outgoingAt id pin)) p ss q

/-- The steps of the cases of a branching from a position on, with the bodies that follow them. -/
inductive Cases (index : Index) (id : String) (b : Branching) :
    Nat → List Case → List (List Step) → List Step → Prop where

  | nil {i} : Cases index id b i [] [] []

  | cons {i c cs body bodies ss} : Follows index id (c.pin i) body →
      Cases index id b (i + 1) cs bodies ss →
      Cases index id b i (c :: cs) (body :: bodies) (.conditionBranch id b c i :: (body ++ ss))

variable {index : Index} {id : String} {b : Branching} {path : List String} {task : Task}
  {p q : Progress} {ss ts : List Step}

theorem cases_of_arms {i : Nat} {cs : List Case}
    (h : Run index path (.arms (branchArms index id b i cs)) p ss q) :
    ∃ bodies, Cases index id b i cs bodies ss := by
  induction cs generalizing i p ss with
  | nil =>
    cases h
    exact ⟨[], .nil⟩
  | cons c cs ih =>
    have hcons : branchArms index id b i (c :: cs) =
        ⟨[.conditionBranch id b c i], index.outgoingAt id (c.pin i)⟩ ::
          branchArms index id b (i + 1) cs := by
      simp [branchArms, List.zipIdx_cons]
    rw [hcons] at h
    cases h with
    | @arm _ _ _ _ body _ _ _ hbody hrest =>
      obtain ⟨bodies, hcases⟩ := ih hrest
      exact ⟨body :: bodies, .cons ⟨path, _, _, hbody⟩ hcases⟩

/-- The steps go on with the cases of a branching and its end. -/
def Unfolds (index : Index) (id : String) (b : Branching) (ss : List Step) : Prop :=
  ∃ bodies arms rest, Cases index id b 0 b.cases bodies arms ∧
    ss = arms ++ .conditionEnd id b :: rest

/-- Every condition that begins unfolds. -/
def Conditions (index : Index) : List Step → Prop
  | [] => True
  | s :: ss =>
    (∀ id b, s = .conditionStart id b → Unfolds index id b ss) ∧ Conditions index ss

theorem Unfolds.append (h : Unfolds index id b ss) (ts : List Step) :
    Unfolds index id b (ss ++ ts) := by
  obtain ⟨bodies, arms, rest, hcases, rfl⟩ := h
  exact ⟨bodies, arms, rest ++ ts, hcases, by simp⟩

theorem Conditions.append (hs : Conditions index ss) (ht : Conditions index ts) :
    Conditions index (ss ++ ts) := by
  induction ss with
  | nil => exact ht
  | cons s ss ih => exact ⟨fun id b h => (hs.1 id b h).append ts, ih hs.2⟩

theorem Conditions.unfolds {before after : List Step}
    (h : Conditions index (before ++ .conditionStart id b :: after)) : Unfolds index id b after := by
  induction before with
  | nil => exact h.1 id b rfl
  | cons s before ih => exact ih h.2

theorem conditions_of_not_begins (h : ∀ s ∈ ss, ¬ s.BeginsCondition) : Conditions index ss := by
  induction ss with
  | nil => trivial
  | cons s ss ih =>
    obtain ⟨hs, hss⟩ := List.forall_mem_cons.mp h
    refine ⟨?_, ih hss⟩
    rintro id b rfl
    exact absurd trivial hs

theorem not_begins_of_mem_heads {node : Node} :
    ∀ a ∈ (plan index node).arms, ∀ s ∈ a.heads, ¬ s.BeginsCondition := by
  unfold plan
  cases node.body with
  | dialogue d =>
    dsimp only
    by_cases hd : d.responses.isEmpty
    · simp [hd]
    · rw [if_neg hd]
      simp only [choiceArms, List.forall_mem_map]
      exact fun _ _ => List.forall_mem_singleton.mpr id
  | branching b =>
    simp only [branchArms, List.forall_mem_map]
    exact fun _ _ => List.forall_mem_singleton.mpr id
  | entry | unknown | exit | instruction | scene | subflow | hub | jump => simp

/-- What is written for a task unfolds its conditions when no step in front of an arm begins one. -/
def Task.Unfolds (index : Index) (ss : List Step) : Task → Prop
  | .arms as => (∀ a ∈ as, ∀ s ∈ a.heads, ¬ s.BeginsCondition) → Conditions index ss
  | _ => Conditions index ss

theorem conditions_expand {node : Node}
    (h : Run index path (.arms (plan index node).arms) p ss q)
    (hs : (Task.arms (plan index node).arms).Unfolds index ss) :
    Conditions index ((plan index node).opening ++ (ss ++ (plan index node).closing)) := by
  have harms : Conditions index ss := hs not_begins_of_mem_heads
  unfold plan at h ⊢
  cases hb : node.body with
  | branching b =>
    simp only [hb] at h ⊢
    obtain ⟨bodies, hcases⟩ := cases_of_arms h
    refine ⟨?_, harms.append (conditions_of_not_begins (by simp [Step.BeginsCondition]))⟩
    rintro id b ⟨rfl, rfl⟩
    exact ⟨bodies, ss, [], hcases, rfl⟩
  | dialogue d =>
    refine (conditions_of_not_begins ?_).append (harms.append (conditions_of_not_begins ?_)) <;>
      by_cases hd : d.responses.isEmpty <;> simp [hd, Step.BeginsCondition]
  | entry | unknown | exit | instruction | scene | subflow | hub | jump =>
    refine (conditions_of_not_begins ?_).append (harms.append (conditions_of_not_begins ?_)) <;>
      simp [Step.BeginsCondition]

theorem Run.conditions (h : Run index path task p ss q) : task.Unfolds index ss := by
  induction h with
  | missing | noEdge => trivial
  | @onPath path id node p hn =>
    change Conditions index (closing node)
    unfold closing
    cases node.hub? with
    | none => trivial
    | some h => exact conditions_of_not_begins (by simp [Step.BeginsCondition])
  | shared => exact conditions_of_not_begins (by simp [Step.BeginsCondition])
  | entered _ _ _ _ ih => exact ih
  | edge _ _ ih ih' => exact ih.append ih'
  | noArm => exact fun _ => trivial
  | arm _ _ ih ih' =>
    intro hh
    obtain ⟨ha, has⟩ := List.forall_mem_cons.mp hh
    exact (conditions_of_not_begins ha).append (ih.append (ih' has))
  | expand h ih => exact conditions_expand h ih

theorem SectionRun.conditions {pending : Pending} {s : Section}
    (h : SectionRun index pending p s q) : Conditions index s.steps := by
  cases h with
  | hub h => exact h.conditions
  | join h => exact h.conditions

end Linearize

/-- Every condition that begins in a body of a script unfolds there. -/
theorem Flow.conditions_bodies (f : Flow) :
    ∀ ss ∈ f.linearize.bodies, Linearize.Conditions f.index ss := by
  have hbodies : Linearize.Conditions f.index f.linearize.main ∧
      ∀ s ∈ f.linearize.sections, Linearize.Conditions f.index s.steps := by
    cases he : f.index.entry with
    | none => simp [f.linearize_of_no_entry he, Linearize.Conditions]
    | some entry =>
      obtain ⟨p, q, h⟩ := Linearize.scriptRun_linearize f.index_coherent he
      refine ⟨h.main.conditions, fun s hs => ?_⟩
      obtain ⟨pending, p, q, hr, -, -⟩ := h.written f.index_coherent s hs
      exact hr.conditions
  rw [LinearScript.bodies, List.forall_mem_cons, List.forall_mem_map]
  exact hbodies

/-- The pins of a branching, in the order of its cases. -/
def Branching.pins (b : Branching) : List String :=
  b.cases.zipIdx.map fun (c, i) => c.pin i

namespace Linearize

variable {index : Index} {id pin : String} {b : Branching} {i : Nat} {cs : List Case}
  {bodies : List (List Step)} {ss : List Step}

theorem Follows.brackets (hc : index.Coherent) (h : Follows index id pin ss) :
    Bracketed index .block ss := by
  obtain ⟨path, p, q, h⟩ := h
  exact h.brackets hc trivial

theorem Cases.brackets (hc : index.Coherent) (h : Cases index id b i cs bodies ss) :
    Bracketed index (.arms (branchHeads id b i cs)) ss := by
  induction h with
  | nil => exact .noArm
  | cons hbody _ ih =>
    rw [branchHeads, List.zipIdx_cons, List.map_cons]
    exact .arm (hbody.brackets hc) ih

theorem Cases.follows (h : Cases index id b i cs bodies ss) :
    List.Forall₂ (Follows index id) ((cs.zipIdx i).map fun (c, i) => c.pin i) bodies := by
  induction h with
  | nil => exact .nil
  | cons hbody _ ih =>
    rw [List.zipIdx_cons, List.map_cons]
    exact .cons hbody ih

end Linearize

/-- Each guard as a line, in front of the lines that it guards. -/
def branches {α : Type} (line : Guard → α) (arms : List (Guard × List α)) : List α :=
  arms.flatMap fun (guard, lines) => line guard :: lines

/-- The guards of branches are written as lines, which depend on the frame at which the bracket of
the condition was opened. What a branch leads to is written inside this bracket. -/
structure Guarded {L F α : Type} (k : Stacking L F) (write : L → Step → Noted (List α))
    (d : Dialect) (line : F → Guard → α) (inside : F → List F → L) : Prop where
  value_eq : ∀ {l f fs id b c i}, k.frames l = f :: fs →
    (write l (.conditionBranch id b c i)).value = [line f (b.guard d c i).value]
  next_eq : ∀ {l f fs id b c i}, k.frames l = f :: fs →
    k.next l (.conditionBranch id b c i) = inside f fs

section Written

variable {index : Index} {id : String} {b : Branching} {i : Nat} {cs : List Case}
  {bodies : List (List Step)} {ss : List Step}

namespace Guarded

variable {L F α : Type} {k : Stacking L F} {write : L → Step → Noted (List α)} {d : Dialect}
  {line : F → Guard → α} {inside : F → List F → L}

theorem cases (hy : Guarded k write d line inside) (hc : index.Coherent)
    (h : Linearize.Cases index id b i cs bodies ss) {l : L} {f : F} {fs : List F}
    (hl : k.frames l = f :: fs) :
    (writeSteps k.next write l ss).value = branches (line f) ((b.guardsFrom d i cs).value.zip
      (bodies.map fun body => (writeSteps k.next write (inside f fs) body).value)) := by
  induction h generalizing l with
  | nil => rfl
  | @cons i c cs body bodies ss hbody _ ih =>
    have hnext : k.next l (.conditionBranch id b c i) = inside f fs := hy.next_eq hl
    have hinside : k.frames (inside f fs) = f :: fs := by
      rw [← hnext, k.arm rfl, hl]
    rw [Layered.writeSteps_arm (hbody.brackets hc), hy.value_eq hl, hnext, ih hinside]
    rfl

/-- The lines of a condition, whose end is met at a layout with the frame of its start. -/
theorem condition (hy : Guarded k write d line inside) (hc : index.Coherent)
    (h : Linearize.Cases index id b 0 b.cases bodies ss) (l : L) :
    ∃ m, k.frames m = k.now l :: k.frames l ∧
      (writeSteps k.next write l (.conditionStart id b :: (ss ++ [.conditionEnd id b]))).value =
        (write l (.conditionStart id b)).value ++
          (branches (line (k.now l)) ((b.guards d).value.zip (bodies.map fun body =>
            (writeSteps k.next write (inside (k.now l) (k.frames l)) body).value)) ++
          (write m (.conditionEnd id b)).value) := by
  have hstart : k.frames (k.next l (.conditionStart id b)) = k.now l :: k.frames l := k.start rfl
  have hafter := (Stacking.keeps_of_bracketed k (h.brackets hc) role_of_mem_branchHeads
    (k.next l (.conditionStart id b)) (by simp [hstart])).1
  exact ⟨_, hafter.trans hstart, by
    rw [Layered.writeSteps_bracket, hy.cases hc h hstart, Branching.guards]⟩

end Guarded

namespace Yarn

/-- The layout of what a case of a condition leads to. -/
def Layout.inBranch (l : Layout) : Layout :=
  ⟨l.depth + 1, l.depth :: l.frames⟩

def conditional (depth : Nat) (arms : List (Guard × List Line)) : List Line :=
  branches (⟨depth, .branch ·⟩) arms ++ [⟨depth, .endif⟩]

theorem guarded (cx : Context) : Guarded stacking (stepLines cx) .yarn
    (fun depth guard => ⟨depth, .branch guard⟩) (fun depth fs => ⟨depth + 1, depth :: fs⟩) where
  value_eq hf := by
    rw [← top_eq hf]
    rfl
  next_eq hf := by
    rw [← hf, ← top_eq hf]
    rfl

/-- The lines of a condition with cases. -/
theorem condition_written (cx : Context) (l : Layout) (hc : index.Coherent)
    (h : Linearize.Cases index id b 0 b.cases bodies ss) (hb : b.cases ≠ []) :
    (linesFrom cx l (.conditionStart id b :: (ss ++ [.conditionEnd id b]))).value =
      conditional l.depth ((b.guards .yarn).value.zip
        (bodies.map fun body => (linesFrom cx l.inBranch body).value)) := by
  obtain ⟨m, hm, he⟩ := (guarded cx).condition hc h l
  have htop : m.top = l.depth := top_eq hm
  have hend : (stepLines cx m (.conditionEnd id b)).value = [⟨l.depth, .endif⟩] := by
    rw [← htop]
    exact if_neg (by simpa using hb)
  rw [hend] at he
  exact he

end Yarn

namespace Ink

/-- The layout of what a case of a condition leads to, which is a weave of its own. -/
def Layout.inBranch (l : Layout) : Layout :=
  ⟨⟨l.now.depth + 2, 1⟩, l.now :: l.frames⟩

def conditional (depth : Nat) (arms : List (Guard × List Line)) : List Line :=
  ⟨depth, .opening⟩ :: (branches (⟨depth + 1, .branch ·⟩) arms ++ [⟨depth, .closing⟩])

theorem guarded (cx : Context) : Guarded stacking (stepLines cx) .ink
    (fun f guard => ⟨f.depth + 1, .branch guard⟩)
    (fun f fs => ⟨⟨f.depth + 2, 1⟩, f :: fs⟩) where
  value_eq hf := by
    rw [← top_eq hf]
    rfl
  next_eq hf := by
    rw [← hf, ← top_eq hf]
    rfl

/-- The lines of a condition with cases. -/
theorem condition_written (cx : Context) (l : Layout) (hc : index.Coherent)
    (h : Linearize.Cases index id b 0 b.cases bodies ss) (hb : b.cases ≠ []) :
    (linesFrom cx l (.conditionStart id b :: (ss ++ [.conditionEnd id b]))).value =
      conditional l.now.depth ((b.guards .ink).value.zip
        (bodies.map fun body => (linesFrom cx l.inBranch body).value)) := by
  have hempty : ¬ b.cases.isEmpty := by simpa using hb
  obtain ⟨m, hm, he⟩ := (guarded cx).condition hc h l
  have hstart : (stepLines cx l (.conditionStart id b)).value = [⟨l.now.depth, .opening⟩] :=
    if_neg hempty
  have htop : m.top = l.now := top_eq hm
  have hend : (stepLines cx m (.conditionEnd id b)).value = [⟨l.now.depth, .closing⟩] := by
    rw [← htop]
    exact if_neg hempty
  rw [hstart, hend] at he
  exact he

end Ink

end Written

/-- Each condition in a script is written as the guards of its branching, in front of the lines of
what the traversal wrote at the pins of the cases. -/
theorem Flow.conditionals_written (f : Flow) {before after : List Step} {id : String}
    {b : Branching} (h : before ++ .conditionStart id b :: after ∈ f.linearize.bodies)
    (hb : b.cases ≠ []) :
    ∃ bodies, List.Forall₂ (Linearize.Follows f.index id) b.pins bodies ∧
      (∀ cx, ∃ l : Yarn.Layout, Yarn.conditional l.depth ((b.guards .yarn).value.zip
        (bodies.map fun ss => (Yarn.linesFrom cx l.inBranch ss).value)) <:+:
          (Yarn.lines cx (before ++ .conditionStart id b :: after)).value) ∧
      ∀ cx, ∃ l : Ink.Layout, Ink.conditional l.now.depth ((b.guards .ink).value.zip
        (bodies.map fun ss => (Ink.linesFrom cx l.inBranch ss).value)) <:+:
          (Ink.lines cx (before ++ .conditionStart id b :: after)).value := by
  obtain ⟨bodies, arms, rest, hcases, rfl⟩ := (f.conditions_bodies _ h).unfolds
  have hwhole : before ++ .conditionStart id b :: (arms ++ .conditionEnd id b :: rest) =
      before ++ (.conditionStart id b :: (arms ++ [.conditionEnd id b]) ++ rest) := by simp
  refine ⟨bodies, hcases.follows, fun cx => ?_, fun cx => ?_⟩
  · refine ⟨Yarn.stacking.after .start before, ?_⟩
    rw [← Yarn.condition_written cx _ f.index_coherent hcases hb, hwhole]
    exact Yarn.stacking.writeSteps_infix before _ rest
  · refine ⟨Ink.stacking.after .start before, ?_⟩
    rw [← Ink.condition_written cx _ f.index_coherent hcases hb, hwhole]
    exact Ink.stacking.writeSteps_infix before _ rest

end StoryFlow
