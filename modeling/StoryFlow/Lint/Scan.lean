import StoryFlow.Lint.Problem
import StoryFlow.Text.Blank
import StoryFlow.Text.Replace

/-! # Scanning lines

A pattern looks at the head of a text, and at the character before it, and gives the part it is
about and the length of the whole match. The matches of a line are found from left to right and
do not overlap. A script is walked line by line with a state.
-/

namespace StoryFlow.Lint
open Text

abbrev Pattern := Option Char → List Char → Option (List Char × Nat)

/-- `skip` counts the characters of the last match that are still to be passed over. -/
def Pattern.matchesFrom (p : Pattern) : Option Char → Nat → List Char → List (List Char)
  | _, _, [] => []
  | _, skip + 1, c :: cs => p.matchesFrom (some c) skip cs
  | before, 0, c :: cs =>
    match p before (c :: cs) with
    | none => p.matchesFrom (some c) 0 cs
    | some (part, length) => part :: p.matchesFrom (some c) (length - 1) cs

/-- The parts that a pattern is about, of all its matches in a line. -/
def Pattern.all (p : Pattern) (cs : List Char) : List (List Char) :=
  p.matchesFrom none 0 cs

/-- A dollar sign and a name. -/
def dollarName : Pattern
  | _, '$' :: cs =>
    let name := cs.takeWhile isWordChar
    if name.isEmpty then none else some (name, name.length + 1)
  | _, _ => none

/-- What stands before the first two closing angle brackets, on one line. -/
def upToClose? : List Char → Option (List Char)
  | [] => none
  | [_] => none
  | c :: d :: cs =>
    if c = '>' ∧ d = '>' then some []
    else if isLineEnd c then none
    else (upToClose? (d :: cs)).map (c :: ·)

/-- A command in double angle brackets that no backslash precedes. -/
def command : Pattern
  | before, '<' :: '<' :: cs =>
    if before = some '\\' then none else (upToClose? cs).map fun body => (body, body.length + 4)
  | _, _ => none

def isBrace (c : Char) : Bool :=
  c == '\x7b' || c == '\x7d'

/-- An expression in braces that no backslash precedes. -/
def inline : Pattern
  | before, '\x7b' :: cs =>
    let body := cs.takeWhile fun c => !isBrace c
    if before ≠ some '\\' ∧ (cs.drop body.length).head? = some '\x7d' then
      some (body, body.length + 2)
    else none
  | _, _ => none

/-- A command that starts with the given word and goes on with blanks, then a part that is taken
from the rest with its own length. -/
def wordCommand (word : List Char) (part : List Char → Option (List Char × Nat)) : Pattern
  | _, cs =>
    if word.isPrefixOf cs then
      let gap := (cs.drop word.length).takeWhile isBlank
      if gap.isEmpty then none
      else (part (cs.drop (word.length + gap.length))).map fun (body, length) =>
        (body, word.length + gap.length + length)
    else none

/-- A jump command, by its target. -/
def jump : Pattern :=
  wordCommand "<<jump".toList fun cs =>
    let target := cs.takeWhile fun c => c ≠ '>' && !isBlank c
    let gap := (cs.drop target.length).takeWhile isBlank
    if !target.isEmpty ∧ [ '>', '>' ].isPrefixOf (cs.drop (target.length + gap.length)) then
      some (target, target.length + gap.length + 2)
    else none

/-- A declaration command, by the name of its variable. -/
def declaration : Pattern :=
  wordCommand "<<declare".toList (dollarName none)

/-- An arrow and a target, which may be a path. -/
def divert : Pattern
  | _, '-' :: '>' :: cs =>
    let gap := cs.takeWhile isBlank
    let target := (cs.drop gap.length).takeWhile fun c => isWordChar c || c == '.'
    if target.isEmpty then none else some (target, target.length + gap.length + 2)
  | _, _ => none

/-- Does one of the words of a text stand for the missing value? -/
def hasNullWord (cs : List Char) : Bool :=
  (pieces ' ' (cs.map fun c => if isWordChar c then c else ' ')).any fun word =>
    ["null".toList, "nil".toList, "undefined".toList].contains word

def startsWithDigit (cs : List Char) : Bool :=
  (cs.head?.map Char.isDigit).getD false

/-- How often a character stands in a text with no backslash that escapes it. -/
def countUnescaped (ch : Char) : List Char → Nat
  | [] => 0
  | [c] => if c = '\\' then 0 else if c = ch then 1 else 0
  | c :: d :: cs =>
    if c = '\\' then countUnescaped ch cs
    else (if c = ch then 1 else 0) + countUnescaped ch (d :: cs)

/-- A carriage return ends a line, alone or with a line feed. -/
def returnLength : List Char → Nat
  | '\r' :: '\n' :: _ => 2
  | '\r' :: _ => 1
  | _ => 0

/-- The lines of a script, without the blanks around them. -/
def lines (source : String) : List (List Char) :=
  (pieces '\n' (substitute returnLength ['\n'] source.toList)).map trim

/-- Walks over lines that are numbered from `n`, and gives the issues and the last state. -/
def walk {σ : Type} (step : σ → Nat → List Char → List Issue × σ) :
    σ → Nat → List (List Char) → List Issue × σ
  | s, _, [] => ([], s)
  | s, n, text :: texts =>
    let here := step s n text
    let rest := walk step here.2 (n + 1) texts
    (here.1 ++ rest.1, rest.2)

/-- The issues for a name, if it starts with a digit. -/
def digitIssues (place : NamePlace) (line : Nat) (name : List Char) : List Issue :=
  if startsWithDigit name then [(Problem.leadingDigit place (String.ofList name)).at line] else []

/-- The line at which a name was defined first. -/
def firstLine? (name : String) (seen : List (String × Nat)) : Option Nat :=
  (seen.find? (·.1 == name)).map (·.2)

/-- Notes where a name is defined; a name that is known already is reported. -/
def define (twice : String → Nat → Problem) (name : String) (line : Nat)
    (seen : List (String × Nat)) : List Issue × List (String × Nat) :=
  match firstLine? name seen with
  | some first => ([(twice name first).at line], seen)
  | none => ([], seen ++ [(name, line)])

end StoryFlow.Lint
