import Mathlib.Data.List.Basic
import StoryFlow.Articy
import StoryFlow.Godot
import StoryFlow.Ink.Document
import StoryFlow.Proofs.Text.Identifier
import StoryFlow.Unity
import StoryFlow.Unreal
import StoryFlow.Yarn.Document

/-! # Declared and used names of variables

The scripts declare a variable by the reference that their conditions use. The graph formats list
it under a name of their own, while their conditions drop the characters that references do not
keep. The two are the same name for the variables that have none of these characters, and for no
others.
-/

namespace StoryFlow

open RefStyle

/-- The name under which a format lists a variable, as its conditions would write it. -/
def Variable.declared (v : Variable) : Dialect → String
  | .ink => Ink.variableRef v
  | .yarn => Yarn.variableRef v
  | .unity => "Variable[\"" ++ Unity.variableName v ++ "\"]"
  | .godot => Godot.variableKey v
  | .unreal => Unreal.variableId v
  | .articy => Articy.nameSpace v ++ "." ++ Articy.localName (Articy.nameSpace v) v

/-- A character that is written alike in the listed name and in references. -/
def Dialect.Keeps (c : Char) : Dialect → Prop
  | .ink | .yarn => True
  | .unity | .unreal | .articy => isRefChar c
  | .godot => isRefChar c ∨ Text.identifierChars [c] = []

section Chars

variable {c : Char} {cs ds : List Char}

theorem toNat_of_isRefChar (h : isRefChar c) : 32 < c.toNat ∧ c.toNat < 128 := by
  simp only [isRefChar, Bool.or_eq_true, beq_iff_eq] at h
  rcases h with (h | rfl) | rfl
  · exact Text.toNat_of_isWordChar h
  all_goals decide

theorem flatChars_append (cs ds : List Char) :
    flatChars (cs ++ ds) = flatChars cs ++ flatChars ds := by
  simp [flatChars, cleanChars]

theorem identifierChars_append (cs ds : List Char) :
    Text.identifierChars (cs ++ ds) = Text.identifierChars cs ++ Text.identifierChars ds := by
  simp [Text.identifierChars, Text.transliterate]

theorem identifierChars_of_isRefChar (h : isRefChar c) :
    Text.identifierChars [c] = flatChars [c] := by
  have hs : Text.spelling c = [c] := if_pos (toNat_of_isRefChar h).2
  by_cases hp : c = '.' ∨ c = '-'
  · simp [Text.identifierChars, Text.transliterate, hs, Text.identifierChar, flatChars,
      cleanChars, h, hp]
  · obtain ⟨hdot, hdash⟩ := not_or.mp hp
    have hw : Text.isWordChar c := by simpa [isRefChar, hdot, hdash] using h
    simp [Text.identifierChars, Text.transliterate, hs, Text.identifierChar_of_isWordChar hw,
      flatChars, cleanChars, h, hdot, hdash]

theorem flatChars_of_not_isRefChar (h : ¬ isRefChar c) : flatChars [c] = [] := by
  simp [flatChars, cleanChars, h]

theorem flatChars_singleton_eq_iff :
    flatChars [c] = Text.identifierChars [c] ↔ Dialect.godot.Keeps c := by
  by_cases h : isRefChar c
  · exact iff_of_true (identifierChars_of_isRefChar h).symm (Or.inl h)
  · rw [flatChars_of_not_isRefChar h, eq_comm]
    exact (or_iff_right h).symm

/-- References only leave characters out of identifiers. -/
theorem flatChars_sublist (cs : List Char) :
    (flatChars cs).Sublist (Text.identifierChars cs) := by
  induction cs with
  | nil => exact .slnil
  | cons c cs ih =>
    rw [← List.singleton_append, flatChars_append, identifierChars_append]
    refine .append ?_ ih
    by_cases h : isRefChar c
    · rw [identifierChars_of_isRefChar h]
    · rw [flatChars_of_not_isRefChar h]
      exact List.nil_sublist _

theorem flatChars_eq_iff :
    flatChars cs = Text.identifierChars cs ↔ ∀ c ∈ cs, Dialect.godot.Keeps c := by
  induction cs with
  | nil => simp [flatChars, cleanChars, Text.identifierChars, Text.transliterate]
  | cons c cs ih =>
    rw [List.forall_mem_cons, ← ih, ← flatChars_singleton_eq_iff, ← List.singleton_append,
      flatChars_append, identifierChars_append]
    constructor
    · intro h
      have hl := congrArg List.length h
      have hc := (flatChars_sublist [c]).length_le
      have hcs := (flatChars_sublist cs).length_le
      rw [List.length_append, List.length_append] at hl
      exact List.append_inj h (by omega)
    · rintro ⟨h, h'⟩
      rw [h, h']

theorem cleanChars_eq_iff : cleanChars cs = cs ↔ ∀ c ∈ cs, isRefChar c :=
  List.filter_eq_self

/-- What comes before the first dot, with a dot, starts the text that has one put behind it. -/
theorem takeWhile_prefix (cs ds : List Char) :
    cs.takeWhile (· ≠ '.') ++ ['.'] <+: cs ++ '.' :: ds := by
  induction cs with
  | nil => simp
  | cons c cs ih => by_cases h : c = '.' <;> simp_all

end Chars

namespace Variable

variable (v : Variable)

theorem toList_fullRef : v.fullRef.toList = v.sheet.toList ++ '.' :: v.name.toList := by
  simp [fullRef]

theorem clean_fullRef : clean v.sheet ++ "." ++ clean v.name = clean v.fullRef := by
  rw [← String.toList_inj]
  simp [clean, Text.onChars, toList_fullRef, cleanChars, isRefChar]

theorem flat_fullRef : flat v.sheet ++ "_" ++ flat v.name = flat v.fullRef := by
  rw [← String.toList_inj]
  simp [flat, Text.onChars, toList_fullRef, flatChars, cleanChars, isRefChar]

/-- The name space is what the full name starts with, so the two parts make it up. -/
theorem nameSpace_localName :
    Articy.nameSpace v ++ "." ++ Articy.localName (Articy.nameSpace v) v = v.fullRef := by
  have hp : (Articy.nameSpace v).toList ++ ['.'] <+: v.fullRef.toList := by
    rw [toList_fullRef, Articy.nameSpace, String.toList_ofList]
    exact takeWhile_prefix _ _
  obtain ⟨rest, hr⟩ := hp
  rw [← String.toList_inj, Articy.localName]
  simp [← hr]

/-- The listed name of a variable is the one its conditions use exactly when all characters of
its full name are written alike. -/
theorem declared_eq_reference_iff (d : Dialect) :
    v.declared d = d.reference v.sheet v.name ↔ ∀ c ∈ v.fullRef.toList, d.Keeps c := by
  have hclean : v.fullRef = clean v.fullRef ↔ ∀ c ∈ v.fullRef.toList, isRefChar c := by
    rw [← cleanChars_eq_iff, clean, Text.onChars, eq_comm, ← String.toList_inj,
      String.toList_ofList]
  have hflat : Text.identifier v.fullRef = flat v.fullRef ↔
      ∀ c ∈ v.fullRef.toList, Dialect.godot.Keeps c := by
    rw [← flatChars_eq_iff, flat, Text.identifier, Text.onChars, Text.onChars, eq_comm,
      String.ofList_inj]
  cases d with
  | ink | yarn => exact iff_of_true rfl fun _ _ => trivial
  | unity =>
    have hr : Dialect.unity.reference v.sheet v.name =
        "Variable[\"" ++ clean v.fullRef ++ "\"]" := by
      simp [← clean_fullRef, Dialect.reference, Dialect.refStyle, reference, String.append_assoc]
    refine Iff.trans ?_ hclean
    rw [hr, ← String.toList_inj, ← String.toList_inj]
    simp [declared, Unity.variableName]
  | unreal =>
    simp only [declared, Unreal.variableId, Dialect.reference, Dialect.refStyle, reference,
      clean_fullRef]
    exact hclean
  | articy =>
    simp only [declared, nameSpace_localName, Dialect.reference, Dialect.refStyle, reference,
      clean_fullRef]
    exact hclean
  | godot =>
    simp only [declared, Godot.variableKey, Dialect.reference, Dialect.refStyle, reference,
      flat_fullRef]
    exact hflat

/-- A sheet with the accent of a speaker's name in its shortcut. -/
def accented : Sheet :=
  ⟨"1", "mc.josé", "José", none, none, none,
    [⟨"2", "number", none, [], [], false, some "health", none⟩]⟩

theorem declared_ne_reference : ∃ v ∈ variablesOf [accented],
    ∀ d ∈ [Dialect.unity, .godot, .unreal, .articy], v.declared d ≠ d.reference v.sheet v.name := by
  refine ⟨_, List.mem_singleton_self _, ?_⟩
  decide +kernel

end Variable

end StoryFlow
