import StoryFlow.Expr.Assignment
import StoryFlow.Script.Steps
import StoryFlow.Yarn.Line

/-! # From steps to Yarn lines

Depth follows the brackets of the steps: the frame of a bracket keeps the depth at which it was
opened, choices and branches stand at that depth, and what they lead to stands one level deeper.
-/

namespace StoryFlow.Yarn

def digitGuard : String := "flow_"

/-- The depth of the next line, and of the brackets that are open, the innermost first. -/
structure Layout where
  depth : Nat
  frames : List Nat
deriving DecidableEq

namespace Layout

def start : Layout := ⟨0, []⟩

def top (l : Layout) : Nat := l.frames.head?.getD 0

def opened (l : Layout) : Layout := ⟨l.depth, l.depth :: l.frames⟩

def inside (l : Layout) : Layout := ⟨l.top + 1, l.frames⟩

def closed (l : Layout) : Layout := ⟨l.top, l.frames.drop 1⟩

def next (l : Layout) : Step → Layout
  | .choicesStart _ | .conditionStart .. => l.opened
  | .choice .. | .conditionBranch .. => l.inside
  | .choicesEnd _ | .conditionEnd .. => l.closed
  | _ => l

end Layout

/-- What the lines of a flow depend on besides its steps. -/
structure Context where
  sheets : List Sheet
  names : FlowNames
  title : String

def sectionTitle (title label : String) : String :=
  title ++ "_" ++ label

/-- The statements of assignments, as lines. -/
def statementLines (depth : Nat) (assignments : List Json) : Noted (List Line) := do
  return (← Assignment.statements .yarn assignments).map fun s => ⟨depth, .statement s⟩

/-- Where a jump leads: to another flow, to a section, or nowhere. -/
def jumpContent (cx : Context) (j : Jump) (target : String) : Content :=
  match j.flowShortcut with
  | some shortcut =>
    .jump ((cx.names.resolve digitGuard ⟨none, some shortcut⟩).getD target)
  | none => if target = "unknown" then .stop else .jump (sectionTitle cx.title target)

/-- The lines of a step at a layout. -/
def stepLines (cx : Context) (l : Layout) : Step → Noted (List Line)
  | .dialogue _ d =>
    let text := Text.singleLine d.spoken
    let speaker := given ((d.speakerIn cx.sheets).map Sheet.name)
    pure (if text = "" then [] else [⟨l.depth, .speech speaker text⟩])
  | .choice _ r _ => do
    let guard ← Condition.guard? .yarn r.condition
    let statements ← statementLines (l.top + 1) r.assignments
    return ⟨l.top, .option r.label guard⟩ :: statements
  | .conditionBranch _ b c i => do
    return [⟨l.top, .branch (← b.guard .yarn c i)⟩]
  | .conditionEnd _ b => pure (if b.cases.isEmpty then [] else [⟨l.top, .endif⟩])
  | .instruction _ assignments => statementLines l.depth assignments
  | .scene _ s => pure [⟨l.depth, .scene s.place⟩]
  | .subflow id s =>
    pure [⟨l.depth, .jump ((cx.names.resolve digitGuard s.flowTarget).getD ("subflow_" ++ id))⟩]
  | .jump _ j target => pure [⟨l.depth, jumpContent cx j target⟩]
  | .divert target => pure [⟨l.depth, .jump (sectionTitle cx.title target)⟩]
  | .choicesStart _ | .choicesEnd _ | .conditionStart .. | .exit _ => pure []

/-- The lines of steps from a layout on. -/
def linesFrom (cx : Context) : Layout → List Step → Noted (List Line) :=
  writeSteps Layout.next (stepLines cx)

def lines (cx : Context) (steps : List Step) : Noted (List Line) :=
  linesFrom cx .start steps

end StoryFlow.Yarn
