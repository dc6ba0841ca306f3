import Mathlib.Data.List.Basic
import StoryFlow.Script.Steps

/-! # What is written for steps

The lines of steps are those of each step, in their order. So a script is read step by step: what
is found in the lines of every step, wherever it is written, is found in those of all steps.
-/

namespace StoryFlow

variable {L α β : Type} {next : L → Step → L} {write : L → Step → Noted (List α)} {l : L}
  {s : Step} {ss : List Step}

theorem writeSteps_cons : (writeSteps next write l (s :: ss)).value =
    (write l s).value ++ (writeSteps next write (next l s) ss).value :=
  rfl

theorem writeSteps_append (ts : List Step) : (writeSteps next write l (ss ++ ts)).value =
    (writeSteps next write l ss).value ++
      (writeSteps next write (ss.foldl next l) ts).value := by
  induction ss generalizing l with
  | nil => rfl
  | cons s ss ih =>
    rw [List.cons_append, writeSteps_cons, ih, writeSteps_cons, List.append_assoc, List.foldl_cons]

/-- The lines of a step, at the layout that it is met with, are among those of all steps. -/
theorem exists_subset_writeSteps (next : L → Step → L) (write : L → Step → Noted (List α)) (l : L)
    (hs : s ∈ ss) : ∃ l', (write l' s).value ⊆ (writeSteps next write l ss).value := by
  induction ss generalizing l with
  | nil => simp at hs
  | cons a ss ih =>
    rw [writeSteps_cons]
    rcases List.mem_cons.mp hs with rfl | hs
    · exact ⟨l, List.subset_append_left _ _⟩
    · obtain ⟨l', hl⟩ := ih (next l a) hs
      exact ⟨l', List.subset_append_of_subset_right _ hl⟩

/-- What every layout decides alike for the lines of a step is decided step by step. -/
theorem forall_mem_writeSteps {p : α → Prop} {q : Step → Prop}
    (h : ∀ s ∈ ss, ∀ l, (∀ a ∈ (write l s).value, p a) ↔ q s) :
    (∀ a ∈ (writeSteps next write l ss).value, p a) ↔ ∀ s ∈ ss, q s := by
  induction ss generalizing l with
  | nil => exact iff_of_true (List.forall_mem_nil _) (List.forall_mem_nil _)
  | cons s ss ih =>
    obtain ⟨hs, hss⟩ := List.forall_mem_cons.mp h
    rw [writeSteps_cons, List.forall_mem_append, hs, ih hss, List.forall_mem_cons]

theorem filterMap_writeSteps {f : α → Option β} {g : Step → Option β}
    (h : ∀ l s, (write l s).value.filterMap f = (g s).toList) (l : L) (ss : List Step) :
    (writeSteps next write l ss).value.filterMap f = ss.filterMap g := by
  induction ss generalizing l with
  | nil => rfl
  | cons s ss ih =>
    rw [writeSteps_cons, List.filterMap_append, h, ih, List.filterMap_cons]
    cases g s <;> rfl

end StoryFlow
