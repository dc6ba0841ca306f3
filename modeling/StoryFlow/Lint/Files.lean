import StoryFlow.Lint.Ink
import StoryFlow.Lint.Yarn
import StoryFlow.Output

/-! # Checking the files of an export

Every script of an export is checked alone, and a name that one file has defined may not be
defined by another one.
-/

namespace StoryFlow.Lint

/-- What is looked at in the scripts of one language. -/
structure Checker where
  fileEnding : String
  check : String → List Issue
  namesOf : List Char → List (NameKind × String)

def Checker.yarn : Checker :=
  ⟨".yarn", Yarn.check, Yarn.namesOf⟩

def Checker.ink : Checker :=
  ⟨".ink", Ink.check, Ink.namesOf⟩

namespace Checker

variable (c : Checker)

/-- The names that a script defines, with their lines. -/
def names (source : String) : List ((NameKind × String) × Nat) :=
  ((lines source).zipIdx 1).flatMap fun (text, line) => (c.namesOf text).map (·, line)

/-- Looks up the owners of names that a file defines, and makes it the owner of those that have
none yet. -/
def settle (file : String) :
    List ((NameKind × String) × Nat) → List ((NameKind × String) × String) →
      List Issue × List ((NameKind × String) × String)
  | [], owners => ([], owners)
  | (name, line) :: names, owners =>
    match owners.find? (·.1 == name) with
    | none => settle file names (owners ++ [(name, file)])
    | some owner =>
      let rest := settle file names owners
      if owner.2 = file then rest
      else (⟨.definedElsewhere name.1 name.2 owner.2, line, some file⟩ :: rest.1, rest.2)

/-- The issues of files in turn, with the owners of the names so far. -/
def checkFrom (owners : List ((NameKind × String) × String)) : List OutputFile → List Issue
  | [] => []
  | f :: fs =>
    let settled := settle f.filename (c.names f.content) owners
    (c.check f.content).map (fun i => { i with file := some f.filename }) ++ settled.1 ++
      checkFrom settled.2 fs

/-- The issues of the scripts among the files. -/
def checkFiles (files : List OutputFile) : List Issue :=
  c.checkFrom [] (files.filter (·.filename.endsWith c.fileEnding))

end Checker

end StoryFlow.Lint
