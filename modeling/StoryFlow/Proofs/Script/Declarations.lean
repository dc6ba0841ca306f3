import Mathlib.Data.List.Forall2
import StoryFlow.Proofs.Expr.Declared

/-! # Declarations of variables in scripts

Both scripts declare a variable under its full reference without the characters that references
drop, dots and hyphens written as underscores. So they declare a name twice when two full
references differ in nothing else, and a name with a leading digit when the first character that
is kept is one.
-/

namespace StoryFlow

open RefStyle Text

namespace RefStyle

/-- Names do not tell dots, hyphens and underscores apart. -/
def isJoiner (c : Char) : Bool :=
  c == '.' || c == '-' || c == '_'

/-- What references keep of two texts differs in nothing but dots, hyphens and underscores. -/
def Alike (s t : String) : Prop :=
  List.Forall₂ (fun c d => c = d ∨ isJoiner c ∧ isJoiner d) (cleanChars s.toList)
    (cleanChars t.toList)

variable {s t : String}

theorem flat_eq_iff : flat s = flat t ↔ Alike s t := by
  have hchar (c d : Char) : ((if c = '.' ∨ c = '-' then '_' else c) =
      if d = '.' ∨ d = '-' then '_' else d) ↔ c = d ∨ isJoiner c ∧ isJoiner d := by
    simp only [isJoiner, Bool.or_eq_true, beq_iff_eq]
    grind
  rw [flat, flat, onChars, onChars, String.ofList_inj, flatChars, flatChars, Alike,
    ← List.forall₂_eq_eq_eq, List.forall₂_map_left_iff, List.forall₂_map_right_iff]
  simp only [hchar]

theorem leadsWithDigit_flat (s : String) : leadsWithDigit (flat s) = leadsWithDigit (clean s) := by
  simp only [leadsWithDigit, flat, clean, onChars, String.toList_ofList, flatChars]
  cases cleanChars s.toList with
  | nil => rfl
  | cons c cs =>
    by_cases h : c = '.' ∨ c = '-'
    · rcases h with rfl | rfl <;> rfl
    · simp [h]

theorem isWordChar_of_mem_flat {c : Char} (h : c ∈ (flat s).toList) : isWordChar c := by
  simp only [flat, onChars, String.toList_ofList, flatChars, List.mem_map, cleanChars,
    List.mem_filter] at h
  obtain ⟨d, ⟨-, hd⟩, rfl⟩ := h
  split
  · rfl
  · rename_i hp
    simpa [isRefChar, not_or.mp hp] using hd

end RefStyle

/-- The name that a line has behind the words that it starts with. -/
def nameBehind (words line : String) : Option String :=
  if words.toList <+: line.toList then
    some (String.ofList ((line.toList.drop words.length).takeWhile isWordChar))
  else none

theorem nameBehind_eq {words name rest : String} {c : Char}
    (hname : ∀ c ∈ name.toList, isWordChar c) (hc : isWordChar c = false) :
    nameBehind words (words ++ name ++ String.ofList [c] ++ rest) = some name := by
  have hline : (words ++ name ++ String.ofList [c] ++ rest).toList =
      words.toList ++ (name.toList ++ c :: rest.toList) := by
    simp
  have hrun : (name.toList ++ c :: rest.toList).takeWhile isWordChar = name.toList := by
    rw [List.takeWhile_append_of_pos hname, List.takeWhile_cons_of_neg (by simp [hc]),
      List.append_nil]
  rw [nameBehind, hline, if_pos (List.prefix_append _ _), ← String.length_toList,
    List.drop_left, hrun, String.ofList_toList]

/-- The names that the lines of a script declare. -/
def Ink.declaredNames (lines : List String) : List String :=
  lines.filterMap (nameBehind "VAR ")

def Yarn.declaredNames (lines : List String) : List String :=
  lines.filterMap (nameBehind "<<declare $")

theorem Ink.declaredNames_declarationLines (vars : List Variable) :
    declaredNames (declarationLines vars) = vars.map fun v => flat v.fullRef := by
  rw [declaredNames, declarationLines, List.filterMap_map, ← List.filterMap_eq_map]
  refine List.filterMap_congr fun v _ => ?_
  have hline : "VAR " ++ variableRef v ++ " = " ++ v.declaration =
      "VAR " ++ flat v.fullRef ++ String.ofList [' '] ++ ("= " ++ v.declaration) := by
    rw [← Variable.flat_fullRef, ← String.toList_inj]
    simp [variableRef, Dialect.reference, Dialect.refStyle, RefStyle.reference]
  rw [Function.comp_apply, hline, nameBehind_eq (fun _ => isWordChar_of_mem_flat) rfl]
  rfl

theorem Yarn.declaredNames_declarationLines (vars : List Variable) :
    declaredNames (declarationLines vars) = vars.map fun v => flat v.fullRef := by
  rw [declaredNames, declarationLines, declarations, List.map_map, List.filterMap_map,
    ← List.filterMap_eq_map]
  refine List.filterMap_congr fun v _ => ?_
  have hline : Line.write 0 ⟨0, .declaration (variableRef v) v.declaration⟩ =
      "<<declare $" ++ flat v.fullRef ++ String.ofList [' '] ++
        ("= " ++ v.declaration ++ ">>") := by
    rw [← Variable.flat_fullRef, ← String.toList_inj]
    simp [Line.write, Content.write, indentation, variableRef, Dialect.reference, Dialect.refStyle,
      RefStyle.reference]
  rw [Function.comp_apply, Function.comp_apply, hline,
    nameBehind_eq (fun _ => isWordChar_of_mem_flat) rfl]
  rfl

/-- Each variable is declared once. Two variables are declared under one name exactly when their
full references are alike, and a name starts with a digit exactly when what references keep of the
full reference does. -/
structure DeclaredAs (vars : List Variable) (names : List String) : Prop where
  length_eq : names.length = vars.length
  nodup_iff : names.Nodup ↔ vars.Pairwise fun v w => ¬ Alike v.fullRef w.fullRef
  digits_iff : (∀ name ∈ names, leadsWithDigit name = false) ↔
    ∀ v ∈ vars, leadsWithDigit (clean v.fullRef) = false

theorem declaredAs_flat (vars : List Variable) :
    DeclaredAs vars (vars.map fun v => flat v.fullRef) where
  length_eq := List.length_map _
  nodup_iff := by
    rw [List.Nodup, List.pairwise_map]
    simp only [ne_eq, flat_eq_iff]
  digits_iff := by
    rw [List.forall_mem_map]
    simp only [leadsWithDigit_flat]

/-- Both scripts declare the variables of a project in this way. -/
theorem declaredNames_nodup_iff (p : Project) :
    DeclaredAs (variablesOf p.sheets)
        (Ink.declaredNames (Ink.declarationLines (variablesOf p.sheets))) ∧
      DeclaredAs (variablesOf p.sheets)
        (Yarn.declaredNames (Yarn.declarationLines (variablesOf p.sheets))) := by
  rw [Ink.declaredNames_declarationLines, Yarn.declaredNames_declarationLines]
  exact ⟨declaredAs_flat _, declaredAs_flat _⟩

/-- A sheet with gold in it. -/
def purse (id shortcut : String) : Sheet :=
  ⟨id, shortcut, "Hero", none, none, none,
    [⟨id, "number", none, [], [], false, some "gold", none⟩]⟩

/-- Two purses whose full references differ in a hyphen and start with a digit. -/
def purses : Project where
  info := ⟨"1", "Purses", none, none, []⟩
  sheets := [purse "1" "1st.hero", purse "2" "1st-hero"]
  flows := []
  scenes := []
  screenplays := []
  localization := .empty
  assets := []

theorem purses_declared_twice : let vars := variablesOf purses.sheets
    (vars.map Variable.fullRef).Nodup ∧
      ∀ names ∈ [Ink.declaredNames (Ink.declarationLines vars),
          Yarn.declaredNames (Yarn.declarationLines vars)],
        ¬ names.Nodup ∧ ∃ name ∈ names, leadsWithDigit name := by
  decide +kernel

end StoryFlow
