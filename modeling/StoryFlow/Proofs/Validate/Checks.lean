import Mathlib.Data.List.Nodup
import StoryFlow.Validate.Reference

/-! # The checks of a validation

A validation runs its checks one after another. Each check reports under a name of its own, so the
findings with the name of a check are what that check has found.
-/

namespace StoryFlow

open Validate

/-- The checks in their order, by name, with what they find. -/
def Project.checks (p : Project) : List (String × List Finding) :=
  [("missing_entry", missingEntries p.flows), ("orphan_nodes", orphanNodes p.flows),
    ("unreachable_nodes", unreachableNodes p.flows), ("empty_dialogue", emptyDialogues p.flows),
    ("missing_speakers", missingSpeakers p.flows), ("circular_subflows", circularSubflows p.flows),
    ("broken_references", brokenReferences p),
    ("missing_translations", unfinishedLocales p.localization),
    ("orphan_sheets", orphanSheets p.sheets p.flows)]

variable {p : Project} {c : String × List Finding} {x : Finding}

theorem Project.findings_eq (p : Project) : p.validate.findings = p.checks.flatMap Prod.snd := by
  simp [validate, checks, List.append_assoc]

theorem Project.nodup_checks (p : Project) : (p.checks.map Prod.fst).Nodup := by
  simp [checks]

theorem check_of_mem_brokenReferences (hx : x ∈ brokenReferences p) :
    x.check = "broken_references" := by
  simp only [brokenReferences, brokenHubs, brokenFlows, brokenScenes, List.mem_append,
    List.mem_flatMap, List.mem_filterMap] at hx
  rcases hx with (⟨f, -, n, -, hx⟩ | ⟨f, -, n, -, hx⟩) | ⟨f, -, n, -, hx⟩
  · split at hx
    · obtain ⟨ref, -, rfl⟩ := Option.map_eq_some_iff.mp hx
      rfl
    · exact nomatch hx
  · obtain ⟨ref, -, rfl⟩ := Option.map_eq_some_iff.mp hx
    rfl
  · split at hx
    · obtain ⟨ref, -, rfl⟩ := Option.map_eq_some_iff.mp hx
      rfl
    · exact nomatch hx

/-- What a check finds carries its name. -/
theorem Project.check_of_mem (hc : c ∈ p.checks) (hx : x ∈ c.2) : x.check = c.1 := by
  simp only [checks, List.mem_cons, List.not_mem_nil, or_false] at hc
  rcases hc with rfl | rfl | rfl | rfl | rfl | rfl | rfl | rfl | rfl
  · obtain ⟨f, -, rfl⟩ := List.mem_map.mp hx
    rfl
  · obtain ⟨f, -, hx⟩ := List.mem_flatMap.mp hx
    obtain ⟨n, -, rfl⟩ := List.mem_map.mp hx
    rfl
  · obtain ⟨f, -, hx⟩ := List.mem_flatMap.mp hx
    rw [unreachableIn] at hx
    split at hx
    · exact absurd hx List.not_mem_nil
    · obtain ⟨n, -, rfl⟩ := List.mem_map.mp hx
      rfl
  · obtain ⟨d, -, rfl⟩ := List.mem_map.mp hx
    rfl
  · obtain ⟨d, -, rfl⟩ := List.mem_map.mp hx
    rfl
  · obtain ⟨id, -, rfl⟩ := List.mem_map.mp hx
    rfl
  · exact check_of_mem_brokenReferences hx
  · obtain ⟨locale, -, hx⟩ := List.mem_filterMap.mp hx
    dsimp only at hx
    split at hx
    · exact nomatch hx
    · exact Option.some.inj hx ▸ rfl
  · obtain ⟨s, -, rfl⟩ := List.mem_map.mp hx
    rfl

/-- The findings with the name of a check are what it has found, in the same order. -/
theorem Project.filter_check (hc : c ∈ p.checks) :
    p.validate.findings.filter (·.check = c.1) = c.2 := by
  have hall : ∀ d ∈ p.checks, ∀ x ∈ d.2, x.check = d.1 := fun d hd x hx => check_of_mem hd hx
  rw [findings_eq]
  obtain ⟨before, after, heq⟩ := List.append_of_mem hc
  have hd := p.nodup_checks
  rw [heq] at hd hall ⊢
  rw [List.map_append, List.map_cons, List.nodup_middle, List.nodup_cons, List.mem_append] at hd
  have hnone : ∀ ds ⊆ before ++ c :: after, c.1 ∉ ds.map Prod.fst →
      (ds.flatMap Prod.snd).filter (·.check = c.1) = [] := by
    intro ds hsub hnot
    rw [List.filter_eq_nil_iff]
    intro x hx
    obtain ⟨d, hm, hxd⟩ := List.mem_flatMap.mp hx
    rw [hall d (hsub hm) x hxd, decide_eq_true_eq]
    exact fun he => hnot (he ▸ List.mem_map_of_mem hm)
  have hown : c.2.filter (·.check = c.1) = c.2 :=
    List.filter_eq_self.mpr fun x hx => decide_eq_true (hall c (by simp) x hx)
  rw [List.flatMap_append, List.flatMap_cons, List.filter_append, List.filter_append, hown,
    hnone before (by simp) fun h => hd.1 (Or.inl h),
    hnone after (by simp) fun h => hd.1 (Or.inr h), List.nil_append, List.append_nil]

theorem Project.mem_findings_iff (hc : c ∈ p.checks) (hx : x.check = c.1) :
    x ∈ p.validate.findings ↔ x ∈ c.2 := by
  rw [← filter_check hc, List.mem_filter, decide_eq_true_eq, and_iff_left hx]

end StoryFlow
