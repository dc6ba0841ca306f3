import StoryFlow.Ink.Escape
import StoryFlow.Script.Guard
import StoryFlow.Script.Metadata

/-! # Lines of an Ink script

A line has a depth and a content. A choice shows its level in the weave by the number of its
stars.
-/

namespace StoryFlow.Ink

inductive Content where
  | speech (speaker : Option String) (text : String)
  | choice (weave : Nat) (label : String) (guard : Option String)
  | statement (s : String)
  | opening
  | branch (guard : Guard)
  | closing
  | scene (place : Option String)
  | tunnel (target : String)
  | missingFlow (id : String)
  | divert (target : String)
  | comeBack
deriving DecidableEq

structure Line where
  depth : Nat
  content : Content
deriving DecidableEq

def ending : String := "END"

/-- The place of a scene inside a tag, which cannot hold another tag. -/
def tagText (place : String) : String :=
  Text.onChars (fun cs => cs.filter (· ≠ '#')) (Text.singleLine place)

def stars (weave : Nat) : String :=
  String.ofList (List.replicate weave '*')

def Content.write : Content → String
  | .speech (some speaker) text => escape speaker ++ ": " ++ escape text
  | .speech none text => escape text
  | .choice weave label (some guard) =>
    stars weave ++ " \x7b" ++ guard ++ "\x7d [" ++ escape label ++ "]"
  | .choice weave label none => stars weave ++ " [" ++ escape label ++ "]"
  | .statement s => s
  | .opening => "\x7b"
  | .branch (.ifTest expr) | .branch (.elseIf expr) => "- " ++ expr ++ ":"
  | .branch .otherwise => "- true:"
  | .closing => "\x7d"
  | .scene (some place) => "# scene: " ++ tagText place
  | .scene none => "# scene:"
  | .tunnel target => "-> " ++ target ++ " ->"
  | .missingFlow id => "// subflow " ++ id ++ " has no target"
  | .divert target => "-> " ++ target
  | .comeBack => "->->"

def Line.write (l : Line) : String :=
  indentation l.depth ++ l.content.write

end StoryFlow.Ink
