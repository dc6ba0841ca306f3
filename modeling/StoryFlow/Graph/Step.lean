import StoryFlow.Project.Basic

/-! # Linear scripts

A flow is written out as steps in the order of play. Choices and branches are bracketed by a start
and an end; a body that is reached from several places stands in a section of its own, and the
places that lead to it divert to its label.
-/

namespace StoryFlow

/-- A step carries the id of the node that it comes from, and what of the node it needs. -/
inductive Step where
  | dialogue (id : String) (d : Dialogue)
  | choicesStart (id : String)
  | choice (id : String) (response : Response) (index : Nat)
  | choicesEnd (id : String)
  | conditionStart (id : String) (b : Branching)
  | conditionBranch (id : String) (b : Branching) (branch : Case) (index : Nat)
  | conditionEnd (id : String) (b : Branching)
  | instruction (id : String) (assignments : List Json)
  | scene (id : String) (s : Scene)
  | subflow (id : String) (s : Subflow)
  | jump (id : String) (j : Jump) (target : String)
  | divert (target : String)
  | exit (id : String)
deriving DecidableEq

/-- A hub section starts after a hub, a join section at a node that several branches arrive at. -/
inductive SectionKind where
  | hub | join
deriving DecidableEq

structure Section where
  label : String
  kind : SectionKind
  node : String
  steps : List Step
deriving DecidableEq

structure LinearScript where
  main : List Step
  sections : List Section
deriving DecidableEq

end StoryFlow
