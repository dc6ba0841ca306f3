import StoryFlow.Proofs.Expr.LineBreaks

/-! # Scripts of assignments

The script of a list of assignments has one line for each statement. No statement is empty and none
breaks its line, so the lines of the script are the statements again, and scripts are made part by
part.
-/

namespace StoryFlow

open Text

/-- The statements of a script: its lines, none when it is empty. -/
def statementLines (script : String) : List String :=
  if script = "" then [] else (pieces '\n' script.toList).map String.ofList

section Lines

variable {line : String} {lines : List String}

theorem statementLines_of_unbroken (hne : line ≠ "") (hu : Unbroken line) :
    statementLines line = [line] := by
  have hn : '\n' ∉ line.toList := fun h => hu _ h (Or.inl rfl)
  rw [statementLines, if_neg hne, pieces_of_not_mem hn, List.map_singleton, String.ofList_toList]

theorem statementLines_cons (hne : line ≠ "") (hu : Unbroken line) {rest : String}
    (hrest : rest ≠ "") : statementLines (line ++ "\n" ++ rest) = line :: statementLines rest := by
  have hn : '\n' ∉ line.toList := fun h => hu _ h (Or.inl rfl)
  have hjoined : (line ++ "\n" ++ rest).toList = line.toList ++ '\n' :: rest.toList := by simp
  rw [statementLines, if_neg (by simp [hne]), hjoined, pieces_append_cons, pieces_of_not_mem hn,
    statementLines, if_neg hrest]
  simp

theorem intercalate_ne_empty (hlines : ∀ l ∈ lines, l ≠ "") (hne : lines ≠ []) :
    "\n".intercalate lines ≠ "" := by
  cases lines with
  | nil => exact absurd rfl hne
  | cons l lines =>
    have hl := hlines l List.mem_cons_self
    cases lines with
    | nil => simpa using hl
    | cons m lines => simp [String.intercalate_cons_cons, hl]

/-- Joined lines are read back when none is empty and none is broken. -/
theorem statementLines_intercalate (hlines : ∀ l ∈ lines, l ≠ "" ∧ Unbroken l) :
    statementLines ("\n".intercalate lines) = lines := by
  induction lines with
  | nil => rfl
  | cons l lines ih =>
    obtain ⟨⟨hne, hu⟩, htail⟩ := List.forall_mem_cons.mp hlines
    cases lines with
    | nil => simpa using statementLines_of_unbroken hne hu
    | cons m lines =>
      have hrest := intercalate_ne_empty (fun l hl => (htail l hl).1) (List.cons_ne_nil m lines)
      rw [String.intercalate_cons_cons, statementLines_cons hne hu hrest, ih htail]

end Lines

namespace Assignment

section Compile

variable {d : Dialect} {a : Assignment} {s : String}

/-- What is assigned with, in every dialect. -/
def operators : List String :=
  ["set", "set_true", "set_false", "toggle", "add", "subtract", "clear", "set_if_unset"]

theorem statement?_isSome (d : Dialect) (a : Assignment) :
    (a.statement? d).isSome ↔ a.operator ∈ operators := by
  unfold statement?
  split <;> simp_all [operators]

/-- The forms that a statement can have. -/
theorem statement?_cases (hs : a.statement? d = some s) :
    let ref := d.reference a.sheet a.name
    (∃ value, s = d.assign ref value) ∨ (∃ sign value, s = d.increment ref sign value) ∨
      ∃ value, s = d.assignIfUnset ref value := by
  unfold statement? at hs
  split at hs <;> cases hs
  · exact Or.inl ⟨_, rfl⟩
  · exact Or.inl ⟨_, rfl⟩
  · exact Or.inl ⟨_, rfl⟩
  · exact Or.inl ⟨_, rfl⟩
  · exact Or.inr (Or.inl ⟨_, _, rfl⟩)
  · exact Or.inr (Or.inl ⟨_, _, rfl⟩)
  · exact Or.inl ⟨_, rfl⟩
  · exact Or.inr (Or.inr ⟨_, rfl⟩)

theorem statement?_ne_empty (hs : a.statement? d = some s) : s ≠ "" := by
  rcases statement?_cases hs with ⟨value, rfl⟩ | ⟨sign, value, rfl⟩ | ⟨value, rfl⟩
  · cases d <;> simp [Dialect.assign]
  · cases d <;> simp [Dialect.increment]
  · cases d <;> simp [Dialect.assignIfUnset]

/-- What is reported about an assignment. -/
def warnings (d : Dialect) (a : Assignment) : List Warning :=
  if (a.statement? d).isSome then []
  else [.unsupportedOperator a.operator d (d.reference a.sheet a.name)]

theorem compile_eq (d : Dialect) (a : Assignment) :
    a.compile d = ⟨a.statement? d, a.warnings d, []⟩ := by
  unfold compile warnings
  cases a.statement? d <;> rfl

theorem compileAll_eq (d : Dialect) (as : List Assignment) :
    compileAll d as = ⟨as.filterMap (statement? d), as.flatMap (warnings d), []⟩ := by
  induction as with
  | nil => rfl
  | cons a as ih =>
    have hcons : compileAll d (a :: as) = ⟨(a.statement? d).toList ++ (compileAll d as).value,
        a.warnings d ++ ((compileAll d as).notes.warnings ++ []),
        (compileAll d as).notes.failures ++ []⟩ := by
      rw [compileAll, compile_eq]
      rfl
    rw [hcons, ih, List.append_nil, List.append_nil, List.flatMap_cons]
    cases hs : a.statement? d <;> simp [hs]

theorem statements_eq (d : Dialect) (stored : List Json) :
    statements d stored =
      ⟨(ofList stored).filterMap (statement? d), (ofList stored).flatMap (warnings d), []⟩ :=
  compileAll_eq d _

end Compile

theorem statements_append (d : Dialect) (a b : List Json) :
    statements d (a ++ b) = ⟨(statements d a).value ++ (statements d b).value,
      (statements d a).notes ++ (statements d b).notes⟩ := by
  have hlist : ofList (a ++ b) = ofList a ++ ofList b := List.filterMap_append
  simp only [statements_eq, hlist, List.filterMap_append, List.flatMap_append]
  rfl

theorem script_notes (d : Dialect) (stored : List Json) :
    (script d stored).notes = (statements d stored).notes :=
  Notes.append_none _

/-- The lines of a script are its statements. -/
theorem statementLines_script (d : Dialect) (stored : List Json) :
    statementLines (script d stored).value = (statements d stored).value := by
  refine statementLines_intercalate fun l hl => ⟨?_, unbroken_statements d stored l hl⟩
  rw [statements_eq] at hl
  obtain ⟨a, -, hs⟩ := List.mem_filterMap.mp hl
  exact statement?_ne_empty hs

/-- What is written and reported for one stored value. -/
inductive Single (d : Dialect) (j : Json) : List String → List Warning → Prop

  | known {a s} (ha : ofJson? j = some a) (ho : a.operator ∈ operators)
      (hs : a.statement? d = some s) : Single d j [s] []

  | unknown {a} (ha : ofJson? j = some a) (ho : a.operator ∉ operators) : Single d j []
      [.unsupportedOperator a.operator d (d.reference a.sheet a.name)]

  | incomplete (ha : ofJson? j = none) : Single d j [] []

theorem single_statements (d : Dialect) (j : Json) :
    Single d j (statements d [j]).value (statements d [j]).notes.warnings := by
  have hlist : ofList [j] = (ofJson? j).toList := by
    cases h : ofJson? j <;> simp [ofList, h]
  rw [statements_eq, hlist]
  cases ha : ofJson? j with
  | none => exact .incomplete ha
  | some a =>
    by_cases ho : a.operator ∈ operators
    · obtain ⟨s, hs⟩ := Option.isSome_iff_exists.mp ((statement?_isSome d a).mpr ho)
      have := Single.known ha ho hs
      simpa [warnings, hs] using this
    · have hs : a.statement? d = none := by
        simpa using (statement?_isSome d a).not.mpr ho
      simpa [warnings, hs] using Single.unknown (d := d) ha ho

theorem single_eq (d : Dialect) (j : Json) :
    single d j = ((ofJson? j).bind (statement? d)).getD "" := by
  have hsingle : single d j = "\n".intercalate (statements d [j]).value := rfl
  rw [hsingle, statements_eq, ofList]
  cases ha : ofJson? j with
  | none => simp [ha]
  | some a => cases hs : a.statement? d <;> simp [ha, hs]

/-- Each value that has a statement gives one line, the statement that it is compiled to alone. -/
theorem statements_eq_filter (d : Dialect) (stored : List Json) :
    (statements d stored).value = (stored.map (single d)).filter (· ≠ "") := by
  rw [statements_eq, ofList, List.filterMap_filterMap]
  induction stored with
  | nil => rfl
  | cons j stored ih =>
    rw [List.map_cons, List.filter_cons, ← ih, single_eq]
    cases hs : (ofJson? j).bind (statement? d) with
    | none => simp [hs]
    | some s =>
      obtain ⟨a, -, ha⟩ := Option.bind_eq_some_iff.mp hs
      simp [hs, statement?_ne_empty ha]

theorem scriptIn_name (d : Dialect) (stored : List Json) :
    scriptIn d.name stored = .ok (script d stored) := by
  cases d <;> rfl

end Assignment

end StoryFlow
