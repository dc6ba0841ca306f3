import StoryFlow.Number.Basic
import StoryFlow.Text.Blank
import StoryFlow.Json.Basic

/-! # Settings

What the surroundings of a program set for all its exports. A setting that cannot be read keeps
its default.
-/

namespace StoryFlow

structure Settings where
  /-- The number of flows up to which a script stays in one file. -/
  multiFileThreshold : Nat
  version : String
  prettyPrint : Bool
  metricsLog : Bool
deriving DecidableEq

namespace Settings

/-- Everything is on but a few words, in any case and with blanks around them. -/
def readFlag (default : Bool) : Option String → Bool
  | none | some "" => default
  | some s =>
    let word := String.ofList ((Text.trim s.toList).map Char.toLower)
    !(word ∈ ["0", "false", "no", "off"])

/-- The digits at the head of a text, after blanks and a sign; what follows them is not read. A
negative number and one beyond the range of numbers count as unreadable. -/
def readCount (default : Nat) (s : Option String) : Nat :=
  let (negative, cs) :=
    match Text.trimStart (s.getD "").toList with
    | '-' :: cs => (true, cs)
    | '+' :: cs => (false, cs)
    | cs => (false, cs)
  let digits := cs.takeWhile Char.isDigit
  let n := Fields.readDigits digits
  if digits.isEmpty || (negative && n != 0) || !(Number.ofNat n).isFinite then default else n

/-- The variables of an environment that settings are read from. -/
def variableNames : List String :=
  ["EXPORT_MULTI_FILE_THRESHOLD", "EXPORT_VERSION", "EXPORT_PRETTY_PRINT", "EXPORT_METRICS_LOG"]

/-- The settings of an environment, given by its variables. -/
def ofEnvironment (get : String → Option String) : Settings where
  multiFileThreshold := readCount 5 (get "EXPORT_MULTI_FILE_THRESHOLD")
  version := ((get "EXPORT_VERSION").filter (· ≠ "")).getD "1.0.0"
  prettyPrint := readFlag true (get "EXPORT_PRETTY_PRINT")
  metricsLog := readFlag false (get "EXPORT_METRICS_LOG")

end Settings

end StoryFlow
