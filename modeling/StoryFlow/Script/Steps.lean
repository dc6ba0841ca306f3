import StoryFlow.Expr.Warning
import StoryFlow.Graph.Step

/-! # Writing steps

Scripts are written step by step. What a step becomes depends on its place, which a layout keeps
track of, and each format has layouts of its own.
-/

namespace StoryFlow

/-- What is written for steps from a layout on: each is written at the layout that the steps before
it lead to. -/
def writeSteps {L α : Type} (next : L → Step → L) (write : L → Step → Noted (List α)) (l : L) :
    List Step → Noted (List α)
  | [] => pure []
  | s :: ss => do
    let own ← write l s
    let rest ← writeSteps next write (next l s) ss
    return own ++ rest

end StoryFlow
