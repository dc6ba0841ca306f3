import StoryFlow.Text.Blank

/-! # Replacing stretches of a text

A stretch is described by a measure: the length of the match at the head of a text, zero for
none. Matches are taken from left to right and do not overlap.
-/

namespace StoryFlow.Text

/-- `skip` counts the characters of the last match that are still to be dropped. -/
def substituteFrom (found : List Char → Nat) (new : List Char) : Nat → List Char → List Char
  | _, [] => []
  | skip + 1, _ :: cs => substituteFrom found new skip cs
  | 0, c :: cs =>
    match found (c :: cs) with
    | 0 => c :: substituteFrom found new 0 cs
    | n + 1 => new ++ substituteFrom found new n cs

/-- Puts `new` in the place of every match. -/
def substitute (found : List Char → Nat) (new : List Char) (cs : List Char) : List Char :=
  substituteFrom found new 0 cs

/-- The measure of one fixed text. -/
def literal (text : List Char) (cs : List Char) : Nat :=
  if text.isPrefixOf cs then text.length else 0

/-- The measure of a run of blanks that holds a line feed. -/
def brokenRun (cs : List Char) : Nat :=
  let run := cs.takeWhile isBlank
  if '\n' ∈ run then run.length else 0

/-- A text on one line: each run of blanks that holds a line feed becomes one space. -/
def singleLine (s : String) : String :=
  onChars (substitute brokenRun [' ']) s

end StoryFlow.Text
