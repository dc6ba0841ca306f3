import StoryFlow.Script.Guard
import StoryFlow.Script.Metadata
import StoryFlow.Yarn.Escape

/-! # Lines of a Yarn script

A line has a depth and a content. Lines of text and options carry a tag with a number, which is
given when the lines of the whole export are written.
-/

namespace StoryFlow.Yarn

inductive Content where
  | speech (speaker : Option String) (text : String)
  | option (label : String) (guard : Option String)
  | statement (s : String)
  | declaration (ref value : String)
  | branch (guard : Guard)
  | endif
  | scene (place : Option String)
  | jump (target : String)
  | stop
deriving DecidableEq

structure Line where
  depth : Nat
  content : Content
deriving DecidableEq

/-- Speech and options carry a tag. -/
def Line.isTagged (l : Line) : Bool :=
  match l.content with
  | .speech .. | .option .. => true
  | _ => false

def tag (n : Nat) : String :=
  "#line:line_" ++ Text.fourDigits n

/-- The text of a line; `n` is the number of its tag. -/
def Content.write (n : Nat) : Content → String
  | .speech (some speaker) text => escape speaker ++ ": " ++ escape text ++ " " ++ tag n
  | .speech none text => escape text ++ " " ++ tag n
  | .option label (some guard) => "-> " ++ escape label ++ " <<if " ++ guard ++ ">> " ++ tag n
  | .option label none => "-> " ++ escape label ++ " " ++ tag n
  | .statement s => s
  | .declaration ref value => "<<declare " ++ ref ++ " = " ++ value ++ ">>"
  | .branch (.ifTest expr) => "<<if " ++ expr ++ ">>"
  | .branch (.elseIf expr) => "<<elseif " ++ expr ++ ">>"
  | .branch .otherwise => "<<else>>"
  | .endif => "<<endif>>"
  | .scene (some place) => "<<scene " ++ Text.singleLine place ++ ">>"
  | .scene none => "<<scene>>"
  | .jump target => "<<jump " ++ target ++ ">>"
  | .stop => "<<stop>>"

def Line.write (n : Nat) (l : Line) : String :=
  indentation l.depth ++ l.content.write n

/-- Writes lines with their tags numbered after `n`, and gives the last number. -/
def writeLines (n : Nat) : List Line → List String × Nat
  | [] => ([], n)
  | l :: ls =>
    let m := if l.isTagged then n + 1 else n
    let rest := writeLines m ls
    (l.write m :: rest.1, rest.2)

end StoryFlow.Yarn
