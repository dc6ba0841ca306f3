import StoryFlow.Proofs.Assoc
import StoryFlow.Proofs.Expr.Declared
import StoryFlow.Proofs.Text.Units

/-! # Name spaces of an articy document

The variables of a story are shared out among name spaces. These are sorted by name, none is empty,
and every variable stands in one of them under the rest of its full name.
-/

namespace StoryFlow.Articy

open Xml

/-- A name space with its variables and their names in it. -/
structure Space where
  name : String
  entries : List (String × Variable)

def Space.tree (s : Space) : Xml :=
  element "Namespace" [("Name", s.name)] (s.entries.map fun (name, v) =>
    element "Variable" [("Name", name), ("Type", typeName v.type), ("Value", v.initial.write)] [])

/-- Name spaces in strictly ascending order of names, each with all variables of its name in their
order. Together they hold every variable once, and the two names of a variable make up its full
name. -/
structure Partition (vars : List Variable) (spaces : List Space) : Prop where
  ascending : spaces.Pairwise fun s t => Text.units s.name < Text.units t.name
  inhabited : ∀ s ∈ spaces, s.entries ≠ []
  in_order : ∀ s ∈ spaces, s.entries.map Prod.snd = vars.filter (nameSpace · = s.name)
  complete : ((spaces.flatMap Space.entries).map Prod.snd).Perm vars
  full_name : ∀ s ∈ spaces, ∀ x ∈ s.entries, s.name ++ "." ++ x.1 = x.2.fullRef

variable {vars : List Variable}

/-- The group of a name space. -/
def Space.ofGroup (g : String × List Variable) : Space :=
  ⟨g.1, g.2.map fun v => (localName g.1 v, v)⟩

theorem Space.map_snd_entries (g : String × List Variable) :
    (ofGroup g).entries.map Prod.snd = g.2 := by
  simp [ofGroup, Function.comp_def]

/-- The name spaces of variables, sorted by name. -/
def spacesOf (vars : List Variable) : List Space :=
  (Text.sortByUnits Prod.fst (Assoc.group nameSpace vars)).map Space.ofGroup

theorem globalVariables_eq (vars : List Variable) :
    globalVariables vars = element "GlobalVariables" [] ((spacesOf vars).map Space.tree) := by
  simp [globalVariables, spacesOf, Space.tree, Space.ofGroup, variableTree, Function.comp_def]

theorem exists_group_of_mem_spacesOf {s : Space} (h : s ∈ spacesOf vars) :
    ∃ g ∈ Assoc.group nameSpace vars, Space.ofGroup g = s := by
  obtain ⟨g, hg, rfl⟩ := List.mem_map.mp h
  exact ⟨g, (Text.sortByUnits_perm _ _).mem_iff.mp hg, rfl⟩

theorem partition_spacesOf (vars : List Variable) : Partition vars (spacesOf vars) where
  ascending := List.pairwise_map.mpr (Text.strict_sortByUnits (Assoc.nodup_keys_group _ _))
  inhabited s hs := by
    obtain ⟨g, hg, rfl⟩ := exists_group_of_mem_spacesOf hs
    simpa [Space.ofGroup] using Assoc.ne_nil_of_mem_group nameSpace vars g hg
  in_order s hs := by
    obtain ⟨g, hg, rfl⟩ := exists_group_of_mem_spacesOf hs
    rw [Space.map_snd_entries]
    exact Assoc.eq_filter_of_mem_group hg
  complete := by
    have hentries : ((spacesOf vars).flatMap Space.entries).map Prod.snd =
        (Text.sortByUnits Prod.fst (Assoc.group nameSpace vars)).flatMap Prod.snd := by
      rw [List.map_flatMap, spacesOf, List.flatMap_map]
      exact List.flatMap_congr fun g _ => Space.map_snd_entries g
    rw [hentries]
    exact ((Text.sortByUnits_perm _ _).flatMap_right _).trans
      (Assoc.flatMap_group_perm nameSpace vars)
  full_name s hs x hx := by
    obtain ⟨g, hg, rfl⟩ := exists_group_of_mem_spacesOf hs
    obtain ⟨v, hv, rfl⟩ := List.mem_map.mp hx
    have hfull := v.nameSpace_localName
    rw [Assoc.key_of_mem_group hg hv] at hfull
    exact hfull

/-- The variables of any sheets are written as name spaces that share them out. -/
theorem globalVariables_partition (sheets : List Sheet) :
    ∃ spaces, globalVariables (variablesOf sheets) =
        element "GlobalVariables" [] (spaces.map Space.tree) ∧
      Partition (variablesOf sheets) spaces :=
  ⟨spacesOf (variablesOf sheets), globalVariables_eq _, partition_spacesOf _⟩

end StoryFlow.Articy
