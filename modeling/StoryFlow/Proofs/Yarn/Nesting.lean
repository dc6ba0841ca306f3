import StoryFlow.Proofs.Script.Stacking
import StoryFlow.Yarn.Steps

/-! # Conditionals of Yarn scripts

The conditional lines that are written for well bracketed steps nest: every `if` is followed by any
number of `elseif`, at most one `else` after them and an `endif`, all at one depth, and the lines
between them nest in turn.
-/

namespace StoryFlow

section Guards

variable {d : Dialect} {b : Branching} {c : Case}

/-- The first case of a branching takes an `if`. -/
theorem Branching.guard_zero (d : Dialect) (b : Branching) (c : Case) :
    ∃ expr, (b.guard d c 0).value = .ifTest expr := by
  unfold guard
  split
  · exact ⟨_, rfl⟩
  · exact ⟨_, rfl⟩

theorem Branching.fallback_cases (d : Dialect) (b : Branching) (i : Nat) :
    (∃ expr, b.fallback d i = .elseIf expr) ∨
      b.fallback d i = .otherwise ∧ i + 1 = b.cases.length := by
  unfold fallback
  split
  · rename_i h
    exact Or.inr ⟨rfl, h⟩
  · exact Or.inl ⟨_, rfl⟩

theorem Branching.switchGuard_succ (d : Dialect) (b : Branching) (c : Case) (i : Nat) :
    (∃ expr, (b.switchGuard d c (i + 1)).value = .elseIf expr) ∨
      (b.switchGuard d c (i + 1)).value = .otherwise ∧ i + 1 + 1 = b.cases.length := by
  unfold switchGuard
  simp only [bind, pure]
  split
  · simp_all
  · exact Or.inl ⟨_, rfl⟩
  · exact b.fallback_cases d _

/-- A later case takes an `elseif`, or the `else` when it is the last one. -/
theorem Branching.guard_succ (d : Dialect) (b : Branching) (c : Case) (i : Nat) :
    (∃ expr, (b.guard d c (i + 1)).value = .elseIf expr) ∨
      (b.guard d c (i + 1)).value = .otherwise ∧ i + 1 + 1 = b.cases.length := by
  unfold guard
  split
  · exact b.switchGuard_succ d c i
  · exact b.fallback_cases d (i + 1)

end Guards

namespace Yarn

def Content.IsConditional : Content → Prop
  | .branch _ | .endif => True
  | _ => False

mutual

/-- The conditionals among the lines nest. -/
inductive Nested : List Line → Prop where

  | nil : Nested []

  | line {l} : ¬ l.content.IsConditional → Nested [l]

  | append {ls ms} : Nested ls → Nested ms → Nested (ls ++ ms)

  | conditional {depth expr ls ms} : Nested ls → Chain depth ms →
      Nested (⟨depth, .branch (.ifTest expr)⟩ :: (ls ++ ms))

/-- What follows the lines of a branch: another branch, or the end of the conditional. -/
inductive Chain : Nat → List Line → Prop where

  | endif {depth} : Chain depth [⟨depth, .endif⟩]

  | otherwise {depth ls} : Nested ls →
      Chain depth (⟨depth, .branch .otherwise⟩ :: (ls ++ [⟨depth, .endif⟩]))

  | elseIf {depth expr ls ms} : Nested ls → Chain depth ms →
      Chain depth (⟨depth, .branch (.elseIf expr)⟩ :: (ls ++ ms))

end

def stacking : Stacking Layout Nat where
  next := Layout.next
  now := Layout.depth
  frames := Layout.frames
  ext := by
    rintro ⟨d, fs⟩ ⟨e, gs⟩ rfl rfl
    rfl
  plain := by
    intro l s hs
    cases s <;> first | rfl | cases hs
  start := by
    intro l s hs
    cases s <;> first | rfl | cases hs
  arm := by
    intro l s hs
    cases s <;> first | rfl | cases hs
  stop := by
    intro l s f fs hs hf
    have hc : l.closed.depth = f ∧ l.closed.frames = fs := by
      simp [Layout.closed, Layout.top, hf]
    cases s <;> first | exact hc | cases hs

variable {cx : Context} {l : Layout}

/-- Steps that do not tell of branchings write no conditionals. -/
theorem not_isConditional_stepLines {s : Step} (hs : ¬ s.IsBranching) :
    ∀ line ∈ (stepLines cx l s).value, ¬ line.content.IsConditional := by
  cases s with
  | dialogue _ d =>
    simp only [stepLines, pure]
    split <;> simp [Content.IsConditional]
  | choice _ r i =>
    refine List.forall_mem_cons.mpr ⟨fun h => h, ?_⟩
    exact List.forall_mem_map.mpr fun _ _ => id
  | instruction => exact List.forall_mem_map.mpr fun _ _ => id
  | jump _ j target =>
    refine List.forall_mem_singleton.mpr ?_
    unfold jumpContent
    split
    · exact id
    · split <;> exact id
  | scene | subflow | divert => exact List.forall_mem_singleton.mpr id
  | choicesStart | choicesEnd | exit => exact List.forall_mem_nil _
  | conditionStart | conditionBranch | conditionEnd => exact absurd trivial hs

/-- Lines from the case at a position on are a whole conditional or the rest of one. -/
def ChainFrom (depth : Nat) : Nat → List Line → Prop
  | 0 => Nested
  | _ + 1 => Chain depth

/-- The case at a position starts a conditional or goes on with one. -/
theorem chainFrom_branch {depth i : Nat} {b : Branching} (c : Case) {ls ms : List Line}
    (hls : Nested ls) (hms : ChainFrom depth (i + 1) ms)
    (hlast : i + 1 = b.cases.length → ms = [⟨depth, .endif⟩]) :
    ChainFrom depth i (⟨depth, .branch (b.guard .yarn c i).value⟩ :: (ls ++ ms)) := by
  cases i with
  | zero =>
    obtain ⟨expr, he⟩ := b.guard_zero .yarn c
    rw [he]
    exact .conditional hls hms
  | succ i =>
    rcases b.guard_succ .yarn c i with ⟨expr, he⟩ | ⟨he, hi⟩
    · rw [he]
      exact .elseIf hls hms
    · rw [he, hlast hi]
      exact .otherwise hls

/-- The lines of the cases from a position on, which an `endif` completes. After the last case
nothing is written. -/
def Arms (depth : Nat) (b : Branching) (i : Nat) (ls : List Line) : Prop :=
  (i = b.cases.length → ls = []) ∧
    (b.cases ≠ [] → ChainFrom depth i (ls ++ [⟨depth, .endif⟩]))

theorem top_eq {depth : Nat} {fs : List Nat} (hf : l.frames = depth :: fs) : l.top = depth := by
  simp [Layout.top, hf]

theorem layered (cx : Context) : Layered stacking (stepLines cx) Nested Arms where
  nil := .nil
  append := .append
  single hs line hline := .line (not_isConditional_stepLines hs line hline)
  noArm := by
    intro depth b
    refine ⟨fun _ => rfl, fun hb => ?_⟩
    cases hl : b.cases.length with
    | zero => exact absurd (List.length_eq_zero_iff.mp hl) hb
    | succ n => exact .endif
  arm := by
    intro l depth fs id b c i ls ms hf hi hls hms
    obtain rfl := top_eq hf
    refine ⟨fun h => absurd h (by omega), fun hb => ?_⟩
    have hlast : i + 1 = b.cases.length →
        ms ++ [⟨l.top, .endif⟩] = ([⟨l.top, .endif⟩] : List Line) := by
      intro h
      rw [hms.1 h, List.nil_append]
    have hchain := chainFrom_branch c hls (hms.2 hb) hlast
    rw [List.append_assoc, List.append_assoc]
    exact hchain
  branching := by
    intro l m id b ls hf hls
    by_cases hb : b.cases = []
    · rw [hls.1 (by simp [hb])]
      simp [stepLines, hb, pure, Nested.nil]
    · have hchain := hls.2 hb
      simp only [stepLines, List.isEmpty_iff, hb, if_false, top_eq hf]
      exact hchain

end Yarn

end StoryFlow
