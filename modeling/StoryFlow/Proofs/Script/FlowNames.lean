import StoryFlow.Proofs.UniqueKeys
import StoryFlow.Script.FlowNames

/-! # Names that are found

Every flow has a name under its id, and every shortcut of a flow has one too. A target that says
only ids and shortcuts of flows leads to the name of one of them. Where ids differ, so do names,
and a name without an underscore is in use exactly when a flow asks for it.
-/

namespace StoryFlow

theorem Text.guardDigit_ne_empty {guard s : String} (hs : s ≠ "") : guardDigit guard s ≠ "" := by
  unfold guardDigit
  split
  · simp [hs]
  · exact hs

namespace FlowNames

variable {guard : String} {flows : List Flow} {f : Flow} {name shortcut : String}

/-- Is the text the name of one of the flows? -/
def Names (guard : String) (flows : List Flow) (name : String) : Prop :=
  ∃ f ∈ flows, (ofFlows guard flows).nameOf guard f = name

theorem lookup_byId_isSome {id : String} :
    ((ofFlows guard flows).byId.lookup id).isSome ↔ ∃ f ∈ flows, f.id = id :=
  UniqueKeys.get?_ofList_isSome.trans List.mem_map

theorem lookup_byId (hf : f ∈ flows) :
    (ofFlows guard flows).byId.lookup f.id = some ((ofFlows guard flows).nameOf guard f) := by
  obtain ⟨name, hn⟩ := Option.isSome_iff_exists.mp (lookup_byId_isSome.mpr ⟨f, hf, rfl⟩)
  rw [nameOf, hn, Option.getD_some]

/-- The shortcuts of the flows with their names. -/
def shortcuts (guard : String) (flows : List Flow) : List (String × String) :=
  flows.filterMap fun f =>
    (given f.shortcut).map fun shortcut => (shortcut, (ofFlows guard flows).nameOf guard f)

theorem lookup_byShortcut : (ofFlows guard flows).byShortcut.lookup shortcut =
    (shortcuts guard flows).reverse.lookup shortcut := by
  rw [ofFlows, Assoc.lookup_ofPairs]
  congr 2
  refine List.filterMap_congr fun f hf => ?_
  cases given f.shortcut with
  | none => rfl
  | some s =>
    change ((ofFlows guard flows).byId.lookup f.id).bind (fun name => some (s, name)) = _
    rw [lookup_byId hf]
    rfl

theorem mem_shortcuts : (shortcut, name) ∈ shortcuts guard flows ↔
    ∃ f ∈ flows, given f.shortcut = some shortcut ∧
      (ofFlows guard flows).nameOf guard f = name := by
  simp [shortcuts]

theorem names_of_lookup_byShortcut
    (h : (ofFlows guard flows).byShortcut.lookup shortcut = some name) :
    Names guard flows name := by
  rw [lookup_byShortcut] at h
  obtain ⟨f, hf, -, hn⟩ := mem_shortcuts.mp (List.mem_reverse.mp (Assoc.mem_of_lookup h))
  exact ⟨f, hf, hn⟩

theorem lookup_byShortcut_isSome (guard : String) (hf : f ∈ flows)
    (hs : given f.shortcut = some shortcut) :
    ∃ name, (ofFlows guard flows).byShortcut.lookup shortcut = some name := by
  rw [lookup_byShortcut, ← Option.isSome_iff_exists, Assoc.lookup_isSome_iff]
  have hm : (shortcut, (ofFlows guard flows).nameOf guard f) ∈ shortcuts guard flows :=
    mem_shortcuts.mpr ⟨f, hf, hs, rfl⟩
  exact List.mem_map.mpr ⟨_, List.mem_reverse.mpr hm, rfl⟩

/-- The name of a flow was chosen for a flow with its id. -/
theorem nameOf_eq (guard : String) (hf : f ∈ flows) :
    ∃ g ∈ flows, g.id = f.id ∧ ∃ taken, (ofFlows guard flows).nameOf guard f =
      UniqueKeys.choose taken f.id (g.identifier guard) :=
  UniqueKeys.choose_of_get? (lookup_byId hf)

theorem identifier_ne_empty (guard : String) (f : Flow) : f.identifier guard ≠ "" := by
  unfold Flow.identifier
  refine Text.guardDigit_ne_empty ?_
  split
  · simp
  · assumption

theorem nameOf_ne_empty (guard : String) (hf : f ∈ flows) :
    (ofFlows guard flows).nameOf guard f ≠ "" := by
  obtain ⟨g, -, -, taken, hn⟩ := nameOf_eq guard hf
  rcases UniqueKeys.choose_eq taken f.id (g.identifier guard) with hc | ⟨rest, hc, -⟩
  · rw [hn, hc]
    exact identifier_ne_empty guard g
  · simp [hn, hc]

section Distinct

variable {g : Flow} (hd : (flows.map Flow.id).Nodup)

include hd

theorem nameOf_injOn (hf : f ∈ flows) (hg : g ∈ flows)
    (h : (ofFlows guard flows).nameOf guard f = (ofFlows guard flows).nameOf guard g) : f = g := by
  have hid := UniqueKeys.id_eq_of_get? hd (lookup_byId hf) (h ▸ lookup_byId hg)
  exact List.inj_on_of_nodup_map hd hf hg hid

theorem nodup_names : (flows.map fun f => (ofFlows guard flows).nameOf guard f).Nodup :=
  (List.nodup_map_iff_inj_on (.of_map _ hd)).mpr fun _ hf _ hg h => nameOf_injOn hd hf hg h

/-- What tells flows apart stands behind an underscore. -/
theorem names_iff (hn : '_' ∉ name.toList) :
    Names guard flows name ↔ ∃ f ∈ flows, f.identifier guard = name := by
  constructor
  · rintro ⟨f, hf, rfl⟩
    obtain ⟨g, hg, -, taken, he⟩ := nameOf_eq guard hf
    rcases UniqueKeys.choose_eq taken f.id (g.identifier guard) with hc | ⟨rest, hc, -⟩
    · exact ⟨g, hg, (he.trans hc).symm⟩
    · rw [he, hc] at hn
      simp at hn
  · rintro ⟨f, hf, rfl⟩
    have hm : f.identifier guard ∈ (UniqueKeys.ofList flows Flow.id (Flow.identifier guard)).taken :=
      UniqueKeys.wanted_mem_taken hf
    obtain ⟨g, hg, hk⟩ := UniqueKeys.get?_of_mem_taken hd hm
    exact ⟨g, hg, Option.some.inj ((lookup_byId hg).symm.trans hk)⟩

end Distinct

end FlowNames

/-- Whatever a target says of a flow is true of one. -/
structure FlowTarget.Known (flows : List Flow) (t : FlowTarget) : Prop where
  id : ∀ id, given t.flowId = some id → ∃ f ∈ flows, f.id = id
  shortcut : ∀ shortcut, given t.shortcut = some shortcut →
    ∃ f ∈ flows, given f.shortcut = some shortcut

namespace FlowTarget.Known

variable {flows : List Flow} {t : FlowTarget} {name : String}

/-- A known target leads to the name of a flow, unless it says nothing. -/
theorem resolve (guard : String) (h : t.Known flows) :
    (∃ name, (FlowNames.ofFlows guard flows).resolve guard t = some name ∧
      FlowNames.Names guard flows name) ∨
    (FlowNames.ofFlows guard flows).resolve guard t = none ∧
      given t.flowId = none ∧ given t.shortcut = none := by
  cases hi : given t.flowId with
  | some id =>
    obtain ⟨f, hf, rfl⟩ := h.id id hi
    refine Or.inl ⟨_, ?_, f, hf, rfl⟩
    simp [FlowNames.resolve, hi, FlowNames.lookup_byId hf]
  | none =>
    cases hs : given t.shortcut with
    | some shortcut =>
      obtain ⟨f, hf, hfs⟩ := h.shortcut shortcut hs
      obtain ⟨name, hn⟩ := FlowNames.lookup_byShortcut_isSome guard hf hfs
      refine Or.inl ⟨name, ?_, FlowNames.names_of_lookup_byShortcut hn⟩
      simp [FlowNames.resolve, hi, hs, hn]
    | none => exact Or.inr ⟨by simp [FlowNames.resolve, hi, hs], rfl, rfl⟩

end FlowTarget.Known

end StoryFlow
