import StoryFlow.Json.Basic

/-! # Findings

What a validation finds, with the place where it was found. The kind of a finding decides the
check that reports it and how serious it is.
-/

namespace StoryFlow

inductive Level where
  | error | warning | info
deriving DecidableEq

def Level.name : Level → String
  | error => "error"
  | warning => "warning"
  | info => "info"

structure FlowRef where
  id : String
  name : String
deriving DecidableEq

structure NodeRef where
  flow : FlowRef
  id : String
  type : String
deriving DecidableEq

/-- What a broken reference was meant to lead to. -/
inductive Target where
  | hub | flow | scene
deriving DecidableEq

def Target.name : Target → String
  | hub => "hub"
  | flow => "flow"
  | scene => "scene"

inductive Finding where
  | missingEntry (flow : FlowRef)
  | orphanNode (node : NodeRef)
  | unreachableNode (node : NodeRef)
  | emptyDialogue (node : NodeRef)
  | missingSpeaker (node : NodeRef)
  | circularSubflow (flow : FlowRef)
  | brokenReference (node : NodeRef) (target : Target) (ref : String)
  | unfinishedLocale (locale : String) (pending total : Nat)
  | orphanSheet (id name : String)
deriving DecidableEq

namespace Finding

/-- The name of the check that reports a finding. -/
def check : Finding → String
  | missingEntry _ => "missing_entry"
  | orphanNode _ => "orphan_nodes"
  | unreachableNode _ => "unreachable_nodes"
  | emptyDialogue _ => "empty_dialogue"
  | missingSpeaker _ => "missing_speakers"
  | circularSubflow _ => "circular_subflows"
  | brokenReference .. => "broken_references"
  | unfinishedLocale .. => "missing_translations"
  | orphanSheet .. => "orphan_sheets"

/-- A flow without an entry and a broken reference cannot be exported. -/
def level : Finding → Level
  | missingEntry _ | brokenReference .. => .error
  | orphanSheet .. => .info
  | _ => .warning

def inQuotes (s : String) : String :=
  "\"" ++ s ++ "\""

/-- How a message names a node of a flow. -/
def placeOf (n : NodeRef) : String :=
  " node (id: " ++ n.id ++ ") in flow " ++ inQuotes n.flow.name

def message : Finding → String
  | missingEntry f => "Flow " ++ inQuotes f.name ++ " has no Entry node"
  | orphanNode n => n.type ++ placeOf n ++ " has no connections"
  | unreachableNode n => n.type ++ placeOf n ++ " is not reachable from Entry"
  | emptyDialogue n => "Dialogue" ++ placeOf n ++ " has no text"
  | missingSpeaker n => "Dialogue" ++ placeOf n ++ " has no speaker assigned"
  | circularSubflow f =>
    "Flow " ++ inQuotes f.name ++ " is part of a circular subflow reference chain"
  | brokenReference n .hub ref =>
    "Jump" ++ placeOf n ++ " references non-existent hub " ++ inQuotes ref
  | brokenReference n .flow _ => "Subflow" ++ placeOf n ++ " references non-existent flow"
  | brokenReference n .scene _ => "Scene" ++ placeOf n ++ " references non-existent scene"
  | unfinishedLocale locale pending total =>
    toString pending ++ " of " ++ toString total ++ " strings are untranslated for locale " ++
      inQuotes locale
  | orphanSheet _ name => "Sheet " ++ inQuotes name ++ " has no references from flows or scenes"

end Finding

inductive Status where
  | passed | warnings | errors
deriving DecidableEq

def Status.name : Status → String
  | passed => "passed"
  | warnings => "warnings"
  | errors => "errors"

/-- The findings of a project, in the order of the checks. -/
structure Validation where
  findings : List Finding
deriving DecidableEq

namespace Validation

variable (v : Validation)

def ofLevel (l : Level) : List Finding :=
  v.findings.filter (·.level = l)

def errors : List Finding := v.ofLevel .error

def warnings : List Finding := v.ofLevel .warning

def info : List Finding := v.ofLevel .info

def status : Status :=
  if !v.errors.isEmpty then .errors else if !v.warnings.isEmpty then .warnings else .passed

/-- The counts of findings, as they are reported. -/
def statistics : Json :=
  .obj [("total_findings", .ofNat v.findings.length), ("error_count", .ofNat v.errors.length),
    ("warning_count", .ofNat v.warnings.length), ("info_count", .ofNat v.info.length)]

end Validation

end StoryFlow
