import StoryFlow.Proofs.Ink.Nesting
import StoryFlow.Proofs.Yarn.Nesting

/-! # Scripts are balanced

Every body of the script of a flow is well bracketed, so both layouts end as they started, and the
conditionals that are written for it nest.
-/

namespace StoryFlow

/-- From its start a layout never looks at an empty stack, it is after the end of every bracket
what it was before the start of it, and the steps leave it as it was. -/
structure Stacking.Balanced {L F : Type} (k : Stacking L F) (index : Index) (start : L)
    (ss : List Step) : Prop where
  safe : k.Safe start ss
  closed : ∀ pre s post, ss = pre ++ s :: post → s.role = .start →
    ∃ inner t rest, post = inner ++ t :: rest ∧ s.ClosedBy t ∧
      Bracketed index .block (s :: (inner ++ [t])) ∧
      k.after start (pre ++ s :: (inner ++ [t])) = k.after start pre
  after : k.after start ss = start

theorem Stacking.balanced_of_bracketed {L F : Type} (k : Stacking L F) {index : Index} {start : L}
    {ss : List Step} (h : Bracketed index .block ss) : k.Balanced index start ss := by
  obtain ⟨hafter, hsafe⟩ := keeps_of_bracketed k h start
  refine ⟨hsafe, ?_, hafter⟩
  rintro pre s post rfl hs
  obtain ⟨inner, t, rest, rfl, ht, hb⟩ := (h.startsClosed (by simp)).closedIn hs
  refine ⟨inner, t, rest, rfl, ht, hb, ?_⟩
  rw [after_append, after_of_bracketed hb]

/-- Every body of a script is well bracketed, the layouts of both formats are balanced on it, and
the conditionals among its lines nest. -/
theorem Flow.balanced_bodies (f : Flow) (yarn : Yarn.Context) (ink : Ink.Context) :
    ∀ ss ∈ f.linearize.bodies, Bracketed f.index .block ss ∧
      Yarn.stacking.Balanced f.index .start ss ∧ Ink.stacking.Balanced f.index .start ss ∧
      Yarn.Nested (Yarn.lines yarn ss).value ∧ Ink.Nested (Ink.lines ink ss).value := by
  intro ss hs
  have h := f.bracketed_bodies ss hs
  exact ⟨h, Yarn.stacking.balanced_of_bracketed h, Ink.stacking.balanced_of_bracketed h,
    (Yarn.layered yarn).nested_of_bracketed h _, (Ink.layered ink).nested_of_bracketed h _⟩

theorem Flow.roundTrip_balanced :
    roundTrip.linearize.main ∈ roundTrip.linearize.bodies ∧
      Yarn.Nested (Yarn.lines ⟨[], ⟨[], []⟩, "Round_trip"⟩ roundTrip.linearize.main).value ∧
      Ink.Nested (Ink.lines ⟨[], ⟨[], []⟩, [], "Round_trip"⟩ roundTrip.linearize.main).value := by
  have hm : roundTrip.linearize.main ∈ roundTrip.linearize.bodies := List.mem_cons_self
  obtain ⟨-, -, -, hy, hi⟩ := balanced_bodies roundTrip ⟨[], ⟨[], []⟩, "Round_trip"⟩
    ⟨[], ⟨[], []⟩, [], "Round_trip"⟩ _ hm
  exact ⟨hm, hy, hi⟩

end StoryFlow
