import StoryFlow.Proofs.Ink.LineBreaks
import StoryFlow.Proofs.Yarn.LineBreaks

/-! # Line breaks in the scripts of a project

Most of what a project says is escaped or put on one line before it is written. What is not are
the names of speakers, the ids of subflows that lead nowhere, the ids of flows where they are part
of a name, and in Ink the operators of rules. A carriage return survives wherever it has no line
feed near it.
-/

namespace StoryFlow.Project

open Text

/-- The lines of the scripts are unbroken exactly when nothing that the steps of the flows show
breaks a line, and the declarations are exactly when no carriage return stands by itself in a text
that a variable starts with. Names of flows take line breaks only from the ids of flows. -/
theorem lines_unbroken_iff (threshold tag : Nat) (p : Project) :
    ((∀ l ∈ Yarn.scriptLines threshold p, Unbroken (l.write tag)) ↔
      (∀ f ∈ p.flows, Yarn.OnOneLine p.sheets (.ofFlows Yarn.digitGuard p.flows) f) ∧
        ∀ v ∈ variablesOf p.sheets, ¬ v.HoldsReturn) ∧
    ((∀ l ∈ Ink.scriptLines p, Unbroken l.write) ↔
      ∀ f ∈ p.flows, Ink.OnOneLine p.sheets (.ofFlows Ink.digitGuard p.flows) f) ∧
    ((∀ line ∈ Yarn.declarationLines (variablesOf p.sheets), Unbroken line) ↔
      ∀ v ∈ variablesOf p.sheets, ¬ v.HoldsReturn) ∧
    ((∀ line ∈ Ink.declarationLines (variablesOf p.sheets), Unbroken line) ↔
      ∀ v ∈ variablesOf p.sheets, ¬ v.HoldsReturn) ∧
    ((∀ f ∈ p.flows, Unbroken f.id) →
      ∀ guard ∈ [Yarn.digitGuard, Ink.digitGuard], ∀ f ∈ p.flows,
        Unbroken ((FlowNames.ofFlows guard p.flows).nameOf guard f)) := by
  refine ⟨?_, ?_, ?_, Ink.unbroken_declarationLines _, ?_⟩
  · rw [← Yarn.onOneLine_scriptFiles threshold p]
    exact forall₂_congr fun l _ => l.unbroken_write tag
  · rw [← Ink.onOneLine_knots]
    exact forall₂_congr fun l _ => l.unbroken_write
  · rw [← Yarn.onOneLine_declarations, Yarn.declarationLines, List.forall_mem_map]
    exact forall₂_congr fun l _ => l.unbroken_write 0
  · intro hids guard hg f hf
    have hguard : Unbroken guard := by
      revert guard
      decide
    exact FlowNames.unbroken_nameOf hguard hids hf

/-- A speaker who says a text, and a door that starts in a state. -/
def stage (speaker text door : String) : Project where
  info := ⟨"1", "Stage", none, none, []⟩
  sheets := [⟨"1", "ann", speaker, none, none, none,
    [⟨"2", "text", none, [], [("text", .str door)], false, some "door", none⟩]⟩]
  flows := [⟨"1", some "first", "First", none, none, true, [],
    [.ofStored "start" "entry" [] none none,
      .ofStored "line" "dialogue" [("text", .str text), ("speaker_sheet_id", .str "1")] none none],
    [⟨none, "start", "output", "line", none, none⟩]⟩]
  scenes := []
  screenplays := []
  localization := .empty
  assets := []

theorem stage_lines_unbroken : let p := stage "Ann" "Hello \n there" "open\r\nshut"
    (Yarn.scriptLines 5 p).map (Yarn.Line.write 1) =
      ["<<declare $ann_door = \"open\\nshut\">>", "Ann: Hello there #line:line_0001"] ∧
    (∀ f ∈ p.flows, Yarn.OnOneLine p.sheets (.ofFlows Yarn.digitGuard p.flows) f) ∧
      ∀ v ∈ variablesOf p.sheets, ¬ v.HoldsReturn := by
  intro p
  have hl : (Yarn.scriptLines 5 p).map (Yarn.Line.write 1) =
      ["<<declare $ann_door = \"open\\nshut\">>", "Ann: Hello there #line:line_0001"] := by
    decide +kernel
  refine ⟨hl, (lines_unbroken_iff 5 1 p).1.mp ?_⟩
  rw [← List.forall_mem_map, hl]
  decide

/-- A line break in the name of a speaker, and carriage returns in a spoken text and in a declared
one. -/
theorem stage_lines_broken :
    ¬ (∀ l ∈ Yarn.scriptLines 5 (stage "Ann\nBob" "Hello" "open"), Unbroken (l.write 1)) ∧
    ¬ (∀ l ∈ Ink.scriptLines (stage "Ann" "Hello\rthere" "open"), Unbroken l.write) ∧
    ¬ ∀ line ∈ Ink.declarationLines (variablesOf (stage "Ann" "Hello" "open\rshut").sheets),
      Unbroken line := by
  decide +kernel

end StoryFlow.Project
