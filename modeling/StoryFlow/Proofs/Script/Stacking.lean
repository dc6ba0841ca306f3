import StoryFlow.Proofs.Graph.Brackets
import StoryFlow.Proofs.Script.Steps

/-! # Layouts with a stack of brackets

A layout that follows the brackets of steps puts what it was on a stack when one is opened and
takes it back when it is closed. On steps that are well bracketed it comes back to where it was,
and the stack is never looked at while it is empty.
-/

namespace StoryFlow

/-- Layouts of type `L` move on with each step and keep frames of type `F` on a stack. -/
structure Stacking (L F : Type) where
  next : L → Step → L
  now : L → F
  frames : L → List F
  ext : ∀ {k l}, now k = now l → frames k = frames l → k = l
  plain : ∀ {l s}, s.role = .plain → next l s = l
  start : ∀ {l s}, s.role = .start → frames (next l s) = now l :: frames l
  arm : ∀ {l s}, s.role = .arm → frames (next l s) = frames l
  stop : ∀ {l s f fs}, s.role = .stop → frames l = f :: fs →
    now (next l s) = f ∧ frames (next l s) = fs

namespace Stacking

variable {L F α : Type} (k : Stacking L F)

def after (l : L) (ss : List Step) : L :=
  ss.foldl k.next l

/-- No step that needs an open bracket stands where there is none. -/
def Safe (l : L) : List Step → Prop
  | [] => True
  | s :: ss => (s.role = .arm ∨ s.role = .stop → k.frames l ≠ []) ∧ Safe (k.next l s) ss

variable {k} {write : L → Step → Noted (List α)} {l : L} {ss ts : List Step}

theorem after_append : k.after l (ss ++ ts) = k.after (k.after l ss) ts :=
  List.foldl_append

theorem safe_append (hs : k.Safe l ss) (ht : k.Safe (k.after l ss) ts) : k.Safe l (ss ++ ts) := by
  induction ss generalizing l with
  | nil => exact ht
  | cons s ss ih => exact ⟨hs.1, ih hs.2 ht⟩

/-- Whole blocks leave the layout as it was, and arms leave the stack. -/
def Keeps (k : Stacking L F) (ss : List Step) : Shape → Prop
  | .block => ∀ l, k.after l ss = l ∧ k.Safe l ss
  | .arms heads => (∀ h ∈ heads, h.role = .arm) → ∀ l, k.frames l ≠ [] →
      k.frames (k.after l ss) = k.frames l ∧ k.Safe l ss

theorem keeps_bracket {s t : Step} {heads : List Step} (hs : s.role = .start)
    (ht : t.role = .stop) (hh : ∀ h ∈ heads, h.role = .arm) (h : k.Keeps ss (.arms heads)) :
    k.Keeps (s :: (ss ++ [t])) .block := by
  intro l
  have hf : k.frames (k.next l s) = k.now l :: k.frames l := k.start hs
  obtain ⟨hframes, hsafe⟩ := h hh (k.next l s) (by simp [hf])
  rw [hf] at hframes
  obtain ⟨hnow, hstack⟩ := k.stop ht hframes
  have hafter : k.after l (s :: (ss ++ [t])) = k.next (k.after (k.next l s) ss) t := by
    rw [← List.cons_append, after_append]
    rfl
  refine ⟨?_, by simp [hs], safe_append hsafe ⟨?_, trivial⟩⟩
  · rw [hafter]
    exact k.ext hnow hstack
  · intro _
    simp [hframes]

/-- Steps that are well bracketed keep the layout and the stack. -/
theorem keeps_of_bracketed (k : Stacking L F) {index : Index} {shape : Shape}
    (h : Bracketed index shape ss) : k.Keeps ss shape := by
  induction h with
  | nil => exact fun l => ⟨rfl, trivial⟩
  | @plain s hs =>
    intro l
    exact ⟨k.plain hs, by simp [hs], trivial⟩
  | append _ _ ih ih' =>
    intro l
    obtain ⟨ha, hs⟩ := ih l
    obtain ⟨ha', hs'⟩ := ih' l
    refine ⟨by rw [after_append, ha, ha'], safe_append hs ?_⟩
    rwa [ha]
  | choices _ _ _ ih => exact keeps_bracket rfl rfl role_of_mem_choiceHeads ih
  | condition _ _ _ ih => exact keeps_bracket rfl rfl role_of_mem_branchHeads ih
  | noArm => exact fun _ l _ => ⟨rfl, trivial⟩
  | @arm h hs ss ts _ _ ih ih' =>
    intro hh l hl
    obtain ⟨hr, hrs⟩ := List.forall_mem_cons.mp hh
    have hf : k.frames (k.next l h) = k.frames l := k.arm hr
    obtain ⟨ha, hsafe⟩ := ih (k.next l h)
    obtain ⟨hframes, hsafe'⟩ := ih' hrs (k.next l h) (hf ▸ hl)
    refine ⟨?_, fun _ => hl, safe_append hsafe (by rwa [ha])⟩
    have hafter : k.after l (h :: (ss ++ ts)) = k.after (k.after (k.next l h) ss) ts := by
      rw [← after_append]
      rfl
    rw [hafter, ha, hframes, hf]

theorem after_of_bracketed {index : Index} (h : Bracketed index .block ss) (l : L) :
    k.after l ss = l :=
  (keeps_of_bracketed k h l).1

/-- What is written for some of the steps stands among the lines of all. -/
theorem writeSteps_infix (before ss after : List Step) :
    (writeSteps k.next write (k.after l before) ss).value <:+:
      (writeSteps k.next write l (before ++ (ss ++ after))).value := by
  rw [writeSteps_append, writeSteps_append, ← List.append_assoc]
  exact List.infix_append _ _ _

end Stacking

def Step.IsBranching : Step → Prop
  | .conditionStart _ _ | .conditionBranch _ _ _ _ | .conditionEnd _ _ => True
  | _ => False

/-- Lines can be put together from those of single steps. The property `nested` is of lines that
stand for themselves, and `arms f b i` of those of a branching from its case `i` on, whose bracket
was opened at the frame `f`. -/
structure Layered {L F α : Type} (k : Stacking L F) (write : L → Step → Noted (List α))
    (nested : List α → Prop) (arms : F → Branching → Nat → List α → Prop) : Prop where
  nil : nested []
  append : ∀ {ls ms}, nested ls → nested ms → nested (ls ++ ms)
  single : ∀ {l s}, ¬ s.IsBranching → ∀ line ∈ (write l s).value, nested [line]
  noArm : ∀ {f b}, arms f b b.cases.length []
  arm : ∀ {l f fs id b c i ls ms}, k.frames l = f :: fs → i < b.cases.length → nested ls →
    arms f b (i + 1) ms → arms f b i ((write l (.conditionBranch id b c i)).value ++ (ls ++ ms))
  branching : ∀ {l m id b ls}, k.frames m = k.now l :: k.frames l → arms (k.now l) b 0 ls →
    nested ((write l (.conditionStart id b)).value ++ (ls ++ (write m (.conditionEnd id b)).value))

namespace Layered

variable {L F α : Type} {k : Stacking L F} {write : L → Step → Noted (List α)}
  {nested : List α → Prop} {arms : F → Branching → Nat → List α → Prop} {ss : List Step}

/-- A step that does not tell of a branching writes lines that stand for themselves. -/
theorem step (hy : Layered k write nested arms) {l : L} {s : Step} (hs : ¬ s.IsBranching) :
    nested (write l s).value := by
  have hlines := hy.single (l := l) hs
  generalize (write l s).value = ls at hlines
  induction ls with
  | nil => exact hy.nil
  | cons line ls ih =>
    obtain ⟨hline, hlines⟩ := List.forall_mem_cons.mp hlines
    exact hy.append hline (ih hlines)

def Writes (k : Stacking L F) (write : L → Step → Noted (List α)) (nested : List α → Prop)
    (arms : F → Branching → Nat → List α → Prop) (ss : List Step) : Shape → Prop
  | .block => ∀ l, nested (writeSteps k.next write l ss).value
  | .arms heads =>
    (∀ id (d : Dialogue), heads ⊆ choiceHeads id d →
      ∀ l, nested (writeSteps k.next write l ss).value) ∧
    ∀ id b i cs, heads = branchHeads id b i cs → i + cs.length = b.cases.length →
      ∀ l f fs, k.frames l = f :: fs → arms f b i (writeSteps k.next write l ss).value

theorem writeSteps_bracket {s t : Step} {l : L} :
    (writeSteps k.next write l (s :: (ss ++ [t]))).value =
      (write l s).value ++ ((writeSteps k.next write (k.next l s) ss).value ++
        (write (k.after (k.next l s) ss) t).value) := by
  rw [writeSteps_cons, writeSteps_append, writeSteps_cons]
  exact congrArg _ (congrArg _ (List.append_nil _))

theorem writeSteps_arm {index : Index} {h : Step} {ts : List Step}
    (hss : Bracketed index .block ss) {l : L} :
    (writeSteps k.next write l (h :: (ss ++ ts))).value =
      (write l h).value ++ ((writeSteps k.next write (k.next l h) ss).value ++
        (writeSteps k.next write (k.next l h) ts).value) := by
  have hafter : ss.foldl k.next (k.next l h) = k.next l h := Stacking.after_of_bracketed hss _
  rw [writeSteps_cons, writeSteps_append, hafter]

theorem writes_arm (hy : Layered k write nested arms) {index : Index} {h : Step}
    {hs ts : List Step} (hss : Bracketed index .block ss)
    (hb : Writes k write nested arms ss .block) (hr : Writes k write nested arms ts (.arms hs)) :
    Writes k write nested arms (h :: (ss ++ ts)) (.arms (h :: hs)) := by
  constructor
  · intro id d hh l
    obtain ⟨hm, hms⟩ := List.cons_subset.mp hh
    obtain ⟨⟨r, i⟩, _, rfl⟩ := List.mem_map.mp hm
    rw [writeSteps_arm hss]
    exact hy.append (hy.step fun h => h) (hy.append (hb _) (hr.1 id d hms _))
  · intro id b i cs hh hlen l f fs hf
    cases cs with
    | nil => simp [branchHeads] at hh
    | cons c cs =>
      obtain ⟨rfl, rfl⟩ := List.cons.inj hh
      rw [List.length_cons] at hlen
      rw [writeSteps_arm hss]
      exact hy.arm hf (by omega) (hb _)
        (hr.2 id b (i + 1) cs rfl (by omega) _ f fs ((k.arm rfl).trans hf))

theorem writes_of_bracketed (hy : Layered k write nested arms) {index : Index} {shape : Shape}
    (h : Bracketed index shape ss) : Writes k write nested arms ss shape := by
  induction h with
  | nil => exact fun l => hy.nil
  | @plain s hs =>
    intro l
    refine hy.append (hy.step ?_) hy.nil
    cases s <;> first | exact id | cases hs
  | append _ _ ih ih' =>
    intro l
    rw [writeSteps_append]
    exact hy.append (ih l) (ih' _)
  | @choices n d ss _ _ _ ih =>
    intro l
    rw [writeSteps_bracket]
    exact hy.append (hy.step id)
      (hy.append (ih.1 n.id d (List.Subset.refl _) _) (hy.step id))
  | @condition n b ss _ _ h ih =>
    intro l
    have hf : k.frames (k.next l (.conditionStart n.id b)) = k.now l :: k.frames l := k.start rfl
    have hm := (Stacking.keeps_of_bracketed k h role_of_mem_branchHeads
      (k.next l (.conditionStart n.id b)) (by simp [hf])).1
    rw [writeSteps_bracket]
    exact hy.branching (hm.trans hf) (ih.2 n.id b 0 b.cases rfl (Nat.zero_add _) _ _ _ hf)
  | noArm =>
    refine ⟨fun _ _ _ l => hy.nil, ?_⟩
    intro id b i cs hh hlen l f fs _
    obtain rfl : cs = [] := by simpa [branchHeads] using hh.symm
    obtain rfl : i = b.cases.length := by simpa using hlen
    exact hy.noArm
  | arm hss _ ih ih' => exact hy.writes_arm hss ih ih'

/-- The lines of steps that are well bracketed stand for themselves. -/
theorem nested_of_bracketed (hy : Layered k write nested arms) {index : Index}
    (h : Bracketed index .block ss) (l : L) : nested (writeSteps k.next write l ss).value :=
  hy.writes_of_bracketed h l

end Layered

end StoryFlow
