import StoryFlow.Expr.Assignment
import StoryFlow.Ink.Line
import StoryFlow.Script.Steps

/-! # From steps to Ink lines

Depth follows the brackets of the steps, and so does the level of the weave: choices go one level
down, and the body of a conditional is a weave of its own.
-/

namespace StoryFlow.Ink

def digitGuard : String := "_"

/-- A depth and a weave level. -/
structure Frame where
  depth : Nat
  weave : Nat
deriving DecidableEq

/-- The frame of the next line, and those of the brackets that are open, the innermost first. -/
structure Layout where
  now : Frame
  frames : List Frame
deriving DecidableEq

namespace Layout

def start : Layout := ⟨⟨0, 0⟩, []⟩

def top (l : Layout) : Frame := l.frames.head?.getD ⟨0, 0⟩

def next (l : Layout) : Step → Layout
  | .choicesStart _ => ⟨⟨l.now.depth, l.now.weave + 1⟩, l.now :: l.frames⟩
  | .choice .. => ⟨⟨l.top.depth + 1, l.now.weave⟩, l.frames⟩
  | .conditionStart .. => ⟨l.now, l.now :: l.frames⟩
  | .conditionBranch .. => ⟨⟨l.top.depth + 2, 1⟩, l.frames⟩
  | .choicesEnd _ | .conditionEnd .. => ⟨l.top, l.frames.drop 1⟩
  | _ => l

end Layout

/-- What the lines of a flow depend on besides its steps. -/
structure Context where
  sheets : List Sheet
  names : FlowNames
  /-- The names of the flows that are entered through a tunnel. -/
  tunnels : List String
  knot : String

def stitchName (label : String) : String :=
  Text.guardDigit digitGuard label

def stitchTarget (cx : Context) (label : String) : String :=
  cx.knot ++ "." ++ stitchName label

def statementLines (depth : Nat) (assignments : List Json) : Noted (List Line) := do
  return (← Assignment.statements .ink assignments).map fun s => ⟨depth, .statement s⟩

/-- Where a jump leads: to another flow, to a stitch, or to the end. -/
def jumpTarget (cx : Context) (j : Jump) (target : String) : String :=
  match j.flowShortcut with
  | some shortcut => (cx.names.resolve digitGuard ⟨none, some shortcut⟩).getD target
  | none => if target = "unknown" then ending else stitchTarget cx target

/-- A flow that was entered through a tunnel returns at its exits. -/
def exitContent (cx : Context) : Content :=
  if cx.knot ∈ cx.tunnels then .comeBack else .divert ending

def subflowContent (cx : Context) (id : String) (s : Subflow) : Content :=
  match given (cx.names.resolve digitGuard s.flowTarget) with
  | some target => .tunnel target
  | none => .missingFlow id

/-- The lines of a step at a layout. -/
def stepLines (cx : Context) (l : Layout) : Step → Noted (List Line)
  | .dialogue _ d =>
    let text := Text.singleLine d.spoken
    let speaker := given ((d.speakerIn cx.sheets).map Sheet.name)
    pure (if text = "" then [] else [⟨l.now.depth, .speech speaker text⟩])
  | .choice _ r _ => do
    let guard ← Condition.guard? .ink r.condition
    let statements ← statementLines (l.top.depth + 1) r.assignments
    return ⟨l.top.depth, .choice l.now.weave r.label guard⟩ :: statements
  | .conditionStart _ b => pure (if b.cases.isEmpty then [] else [⟨l.now.depth, .opening⟩])
  | .conditionBranch _ b c i => do
    return [⟨l.top.depth + 1, .branch (← b.guard .ink c i)⟩]
  | .conditionEnd _ b => pure (if b.cases.isEmpty then [] else [⟨l.top.depth, .closing⟩])
  | .instruction _ assignments => statementLines l.now.depth assignments
  | .scene _ s => pure [⟨l.now.depth, .scene s.place⟩]
  | .subflow id s => pure [⟨l.now.depth, subflowContent cx id s⟩]
  | .jump _ j target => pure [⟨l.now.depth, .divert (jumpTarget cx j target)⟩]
  | .divert target => pure [⟨l.now.depth, .divert (stitchTarget cx target)⟩]
  | .exit _ => pure [⟨l.now.depth, exitContent cx⟩]
  | .choicesStart _ | .choicesEnd _ => pure []

/-- The lines of steps from a layout on. -/
def linesFrom (cx : Context) : Layout → List Step → Noted (List Line) :=
  writeSteps Layout.next (stepLines cx)

def lines (cx : Context) (steps : List Step) : Noted (List Line) :=
  linesFrom cx .start steps

end StoryFlow.Ink
