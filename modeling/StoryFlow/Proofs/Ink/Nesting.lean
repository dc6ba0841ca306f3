import StoryFlow.Ink.Steps
import StoryFlow.Proofs.Script.Stacking

/-! # Conditionals of Ink scripts

The lines with braces that are written for the conditions of well bracketed steps nest: what is
opened is closed at the same depth, the branches between stand one level deeper, and their lines
nest in turn.
-/

namespace StoryFlow.Ink

def Content.IsConditional : Content → Prop
  | .opening | .branch _ | .closing => True
  | _ => False

mutual

/-- The conditionals among the lines nest. -/
inductive Nested : List Line → Prop where

  | nil : Nested []

  | line {l} : ¬ l.content.IsConditional → Nested [l]

  | append {ls ms} : Nested ls → Nested ms → Nested (ls ++ ms)

  | conditional {depth ls} : Branches (depth + 1) ls →
      Nested (⟨depth, .opening⟩ :: (ls ++ [⟨depth, .closing⟩]))

/-- The branches of a conditional, each at the given depth. -/
inductive Branches : Nat → List Line → Prop where

  | nil {depth} : Branches depth []

  | cons {depth guard ls ms} : Nested ls → Branches depth ms →
      Branches depth (⟨depth, .branch guard⟩ :: (ls ++ ms))

end

def stacking : Stacking Layout Frame where
  next := Layout.next
  now := Layout.now
  frames := Layout.frames
  ext := by
    rintro ⟨d, fs⟩ ⟨e, gs⟩ rfl rfl
    rfl
  plain := by
    intro l s hs
    cases s <;> first | rfl | cases hs
  start := by
    intro l s hs
    cases s <;> first | rfl | cases hs
  arm := by
    intro l s hs
    cases s <;> first | rfl | cases hs
  stop := by
    intro l s f fs hs hf
    have hc : l.top = f ∧ l.frames.drop 1 = fs := by
      simp [Layout.top, hf]
    cases s <;> first | exact hc | cases hs

variable {cx : Context} {l : Layout}

/-- Steps that do not tell of branchings write no conditionals. -/
theorem not_isConditional_stepLines {s : Step} (hs : ¬ s.IsBranching) :
    ∀ line ∈ (stepLines cx l s).value, ¬ line.content.IsConditional := by
  cases s with
  | dialogue _ d =>
    simp only [stepLines, pure]
    split <;> simp [Content.IsConditional]
  | choice _ r i =>
    refine List.forall_mem_cons.mpr ⟨fun h => h, ?_⟩
    exact List.forall_mem_map.mpr fun _ _ => id
  | instruction => exact List.forall_mem_map.mpr fun _ _ => id
  | subflow =>
    refine List.forall_mem_singleton.mpr ?_
    unfold subflowContent
    split <;> exact id
  | exit =>
    refine List.forall_mem_singleton.mpr ?_
    unfold exitContent
    split <;> exact id
  | scene | jump | divert => exact List.forall_mem_singleton.mpr id
  | choicesStart | choicesEnd => exact List.forall_mem_nil _
  | conditionStart | conditionBranch | conditionEnd => exact absurd trivial hs

/-- The lines of the cases from a position on are branches; without cases there are none. -/
def Arms (f : Frame) (b : Branching) (_ : Nat) (ls : List Line) : Prop :=
  (b.cases = [] → ls = []) ∧ Branches (f.depth + 1) ls

theorem top_eq {f : Frame} {fs : List Frame} (hf : l.frames = f :: fs) : l.top = f := by
  simp [Layout.top, hf]

theorem layered (cx : Context) : Layered stacking (stepLines cx) Nested Arms where
  nil := .nil
  append := .append
  single hs line hline := .line (not_isConditional_stepLines hs line hline)
  noArm := ⟨fun _ => rfl, .nil⟩
  arm := by
    intro l f fs id b c i ls ms hf hi hls hms
    refine ⟨fun hb => ?_, ?_⟩
    · simp [hb] at hi
    · have hbranch : Branches (l.top.depth + 1)
          (⟨l.top.depth + 1, .branch (b.guard .ink c i).value⟩ :: (ls ++ ms)) := by
        rw [top_eq hf]
        exact .cons hls hms.2
      rw [← top_eq hf]
      exact hbranch
  branching := by
    intro l m id b ls hf hls
    by_cases hb : b.cases = []
    · rw [hls.1 hb]
      simp [stepLines, hb, pure, Nested.nil]
    · simp only [stepLines, List.isEmpty_iff, hb, if_false, top_eq hf]
      exact .conditional hls.2

end StoryFlow.Ink
