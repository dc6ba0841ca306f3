import StoryFlow.Ink.Steps
import StoryFlow.Proofs.Script.FlowNames
import StoryFlow.Proofs.Text.Identifier
import StoryFlow.Yarn.Steps

/-! # Names of flows as identifiers

The name of a flow is not empty and does not start with a digit. An id goes into a name as it is,
behind `flow_` or where two flows ask for one name, and then the name is an identifier only if the
id consists of letters, digits and underscores.
-/

namespace StoryFlow

open Text

theorem UniqueKeys.exists_choose_eq_append (taken : List String) (i name : String) :
    ∃ rest, choose taken i name = name ++ rest := by
  rcases choose_eq taken i name with h | ⟨rest, h, -⟩
  · exact ⟨"", by rw [h, String.append_empty]⟩
  · exact ⟨"_" ++ rest, by rw [h, String.append_assoc]⟩

/-- A key that is not the one asked for holds the id. -/
theorem UniqueKeys.isWord_choose {taken : List String} {i name : String} :
    IsWord (choose taken i name) ↔
      IsWord name ∧ (choose taken i name = name ∨ IsWord i) := by
  have hu : IsWord "_" := by decide
  rcases choose_eq taken i name with h | ⟨rest, h, hrest⟩
  · simp [h]
  · have hne : name ++ "_" ++ rest ≠ name := by
      intro he
      have hl := congrArg String.length he
      rw [String.length_append, String.length_append, show "_".length = 1 from rfl] at hl
      omega
    have hi : IsWord rest ↔ IsWord i := by
      rcases hrest with rfl | ⟨k, rfl⟩
      · exact Iff.rfl
      · simp only [isWord_append, hu, isWord_toString, and_true]
    rw [h, isWord_append, isWord_append, and_iff_left hu, hi, or_iff_right hne]

namespace FlowNames

variable {guard name : String} {flows : List Flow} {f : Flow}

theorem isWord_identifier (hg : IsWord guard) :
    IsWord (f.identifier guard) ↔ Text.identifier f.handle ≠ "" ∨ IsWord f.id := by
  have hflow : IsWord "flow_" := by decide
  rw [Flow.identifier, isWord_guardDigit hg]
  split
  · rename_i ho
    rw [isWord_append, and_iff_right hflow, or_iff_right (not_not_intro ho)]
  · rename_i ho
    exact iff_of_true (Text.isWord_identifier _) (Or.inl ho)

theorem leadsWithDigit_nameOf (hg : IsIdentifier guard) (hf : f ∈ flows) :
    leadsWithDigit ((ofFlows guard flows).nameOf guard f) = false := by
  obtain ⟨g, -, -, taken, hn⟩ := nameOf_eq guard hf
  obtain ⟨rest, hc⟩ := UniqueKeys.exists_choose_eq_append taken f.id (g.identifier guard)
  rw [hn, hc, leadsWithDigit_append (identifier_ne_empty guard g)]
  exact leadsWithDigit_guardDigit hg _

/-- The flow is named after its own shortcut or name, with nothing added. -/
def Plain (guard : String) (flows : List Flow) (f : Flow) : Prop :=
  ∃ g ∈ flows, g.id = f.id ∧ Text.identifier g.handle ≠ "" ∧
    (ofFlows guard flows).nameOf guard f = g.identifier guard

theorem isWord_nameOf (hg : IsWord guard) (hf : f ∈ flows) :
    IsWord ((ofFlows guard flows).nameOf guard f) ↔ IsWord f.id ∨ Plain guard flows f := by
  constructor
  · intro hw
    obtain ⟨g, hgf, hid, taken, hn⟩ := nameOf_eq guard hf
    rw [hn, UniqueKeys.isWord_choose, isWord_identifier hg, hid, ← hn] at hw
    rcases hw with ⟨hown | hi, he | hi⟩
    · exact Or.inr ⟨g, hgf, hid, hown, he⟩
    all_goals exact Or.inl hi
  · rintro (hi | ⟨g, -, -, hown, he⟩)
    · obtain ⟨g, -, hid, taken, hn⟩ := nameOf_eq guard hf
      rw [hn, UniqueKeys.isWord_choose, isWord_identifier hg, hid]
      exact ⟨Or.inr hi, Or.inr hi⟩
    · rw [he, isWord_identifier hg]
      exact Or.inl hown

theorem names_of_mem_byId (h : name ∈ (ofFlows guard flows).byId.map Prod.snd) :
    Names guard flows name := by
  obtain ⟨⟨id, name⟩, hm, rfl⟩ := List.mem_map.mp h
  have hl : (ofFlows guard flows).byId.lookup id = some name :=
    Assoc.lookup_of_mem UniqueKeys.nodup_ids hm
  obtain ⟨f, hf, rfl⟩ := lookup_byId_isSome.mp (Option.isSome_of_eq_some hl)
  exact ⟨f, hf, Option.some.inj ((lookup_byId hf).symm.trans hl)⟩

theorem names_of_mem_byShortcut (h : name ∈ (ofFlows guard flows).byShortcut.map Prod.snd) :
    Names guard flows name := by
  obtain ⟨⟨shortcut, name⟩, hm, rfl⟩ := List.mem_map.mp h
  exact names_of_lookup_byShortcut (Assoc.lookup_of_mem (Assoc.nodup_keys_ofPairs _) hm)

/-- All names that references can find are names of flows. Each of these is an identifier exactly
when the id of its flow could be part of one or the flow has the name that it asks for. -/
theorem identifiers_iff (hg : guard ∈ [Ink.digitGuard, Yarn.digitGuard]) (flows : List Flow) :
    let names := ofFlows guard flows
    (∀ name ∈ names.byId.map Prod.snd ++ names.byShortcut.map Prod.snd,
        Names guard flows name) ∧
      ∀ f ∈ flows, names.nameOf guard f ≠ "" ∧ leadsWithDigit (names.nameOf guard f) = false ∧
        (IsIdentifier (names.nameOf guard f) ↔ IsWord f.id ∨ Plain guard flows f) := by
  intro names
  have hguard : IsIdentifier guard := by
    revert guard
    decide
  constructor
  · rw [List.forall_mem_append]
    exact ⟨fun _ => names_of_mem_byId, fun _ => names_of_mem_byShortcut⟩
  · intro f hf
    have hne := nameOf_ne_empty guard hf
    have hlead := leadsWithDigit_nameOf hguard hf
    refine ⟨hne, hlead, ?_⟩
    rw [isIdentifier_iff, and_iff_right hne, and_iff_left hlead, isWord_nameOf hguard.word hf]

/-- A flow with a name. -/
def hall (id name : String) : Flow where
  id := id
  shortcut := none
  name := name
  description := none
  parentId := none
  isMain := false
  settings := []
  nodes := []
  connections := []

theorem halls_identifiers :
    let flows := [hall "1" "Great hall", hall "a-b" "2nd hall", hall "3" "Great hall"]
    let names := ofFlows Yarn.digitGuard flows
    Yarn.digitGuard ∈ [Ink.digitGuard, Yarn.digitGuard] ∧
      flows.map (names.nameOf Yarn.digitGuard) = ["Great_hall", "flow_2nd_hall", "Great_hall_3"] ∧
      ∀ f ∈ flows, IsIdentifier (names.nameOf Yarn.digitGuard f) := by
  intro flows names
  have hg : Yarn.digitGuard ∈ [Ink.digitGuard, Yarn.digitGuard] := by decide
  refine ⟨hg, by decide +kernel, fun f hf => ?_⟩
  rw [((identifiers_iff hg flows).2 f hf).2.2]
  simp only [flows, List.mem_cons, List.not_mem_nil, or_false] at hf
  rcases hf with rfl | rfl | rfl
  · exact Or.inl (by decide)
  · exact Or.inr ⟨hall "a-b" "2nd hall", by simp [flows], rfl, by decide, by decide +kernel⟩
  · exact Or.inl (by decide)

/-- An id with a hyphen, in the name of a flow that has no other, and in that of a flow whose name
is taken. -/
theorem halls_not_identifiers :
    (ofFlows Ink.digitGuard [hall "a-b" ""]).byId = [("a-b", "flow_a-b")] ∧
      (ofFlows Yarn.digitGuard [hall "1" "Hall", hall "a-b" "Hall"]).byId =
        [("1", "Hall"), ("a-b", "Hall_a-b")] ∧
      ¬ IsIdentifier "flow_a-b" ∧ ¬ IsIdentifier "Hall_a-b" := by
  decide +kernel

end FlowNames

end StoryFlow
