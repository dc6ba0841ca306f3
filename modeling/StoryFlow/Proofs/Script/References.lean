import StoryFlow.Proofs.Ink.Transfers
import StoryFlow.Proofs.Script.FlowNames
import StoryFlow.Proofs.Yarn.Transfers

/-! # References land on the flow that they name

Where ids and shortcuts differ, a reference by the id of a flow leads to the name of that flow, and
so does one by its shortcut that says no id of a flow. This name is the one that the flow is
written under. An empty id is no reference, even where a flow has it.
-/

namespace StoryFlow

/-- The shortcuts of the flows that have one. -/
def shortcutsOf (flows : List Flow) : List String :=
  flows.filterMap fun f => given f.shortcut

namespace FlowNames

variable {guard shortcut : String} {flows : List Flow} {f : Flow} {t : FlowTarget}

theorem keys_shortcuts (guard : String) (flows : List Flow) :
    (shortcuts guard flows).map Prod.fst = shortcutsOf flows := by
  simp [shortcuts, shortcutsOf, List.map_filterMap, Function.comp_def]

theorem lookup_byShortcut_of_mem (hs : (shortcutsOf flows).Nodup) (hf : f ∈ flows)
    (h : given f.shortcut = some shortcut) :
    (ofFlows guard flows).byShortcut.lookup shortcut =
      some ((ofFlows guard flows).nameOf guard f) := by
  have hk : ((shortcuts guard flows).reverse.map Prod.fst).Nodup := by
    rwa [List.map_reverse, List.nodup_reverse, keys_shortcuts]
  rw [lookup_byShortcut]
  exact Assoc.lookup_of_mem hk (List.mem_reverse.mpr (mem_shortcuts.mpr ⟨f, hf, h, rfl⟩))

theorem resolve_of_id (hf : f ∈ flows) (ht : given t.flowId = some f.id) :
    (ofFlows guard flows).resolve guard t = some ((ofFlows guard flows).nameOf guard f) := by
  simp [resolve, ht, lookup_byId hf]

/-- Without the id of a flow, a reference is looked up by its shortcut. -/
theorem resolve_of_shortcut (ht : ∀ id ∈ given t.flowId, id ∉ flows.map Flow.id)
    (hs : given t.shortcut = some shortcut) {name : String}
    (hn : (ofFlows guard flows).byShortcut.lookup shortcut = some name) :
    (ofFlows guard flows).resolve guard t = some name := by
  have hnone : (given t.flowId).bind (fun id => (ofFlows guard flows).byId.lookup id) = none := by
    rw [Option.bind_eq_none_iff]
    intro id hid
    rw [← Option.not_isSome_iff_eq_none, lookup_byId_isSome]
    simpa using ht id hid
  simp [resolve, hnone, hs, hn]

end FlowNames

theorem Ink.names_knots (p : Project) (names : FlowNames) (fs : List Flow) :
    (knots p names fs).value.map Knot.name = fs.map (names.nameOf digitGuard) := by
  rw [knots_value, List.map_map]
  rfl

/-- The first node of a flow has its name. -/
theorem Yarn.firstTitles_allNodes (sheets : List Sheet) (names : FlowNames) (preamble : List Line)
    (fs : List Flow) :
    (allNodes sheets names preamble fs).value.map (fun e => e.2.head?.map Node.title) =
      fs.map fun f => some (names.nameOf digitGuard f) := by
  induction fs generalizing preamble with
  | nil => rfl
  | cons f fs ih => exact congrArg (some (names.nameOf digitGuard f) :: ·) (ih [])

/-- Every reference that names a flow leads to it, and no other flow has its name. -/
structure FlowNames.Land (guard : String) (flows : List Flow) : Prop where
  byId : ∀ f ∈ flows, ∀ t : FlowTarget, t.flowId = some f.id → f.id ≠ "" →
    (ofFlows guard flows).resolve guard t = some ((ofFlows guard flows).nameOf guard f)
  byShortcut : ∀ f ∈ flows, ∀ t : FlowTarget, (∀ id ∈ given t.flowId, id ∉ flows.map Flow.id) →
    ∀ shortcut, t.shortcut = some shortcut → given f.shortcut = some shortcut →
      (ofFlows guard flows).resolve guard t = some ((ofFlows guard flows).nameOf guard f)
  emptyId : ∀ shortcut : Option String,
    (ofFlows guard flows).resolve guard ⟨some "", shortcut⟩ =
      (ofFlows guard flows).resolve guard ⟨none, shortcut⟩
  distinct : ∀ f ∈ flows, ∀ g ∈ flows, f ≠ g →
    (ofFlows guard flows).nameOf guard f ≠ (ofFlows guard flows).nameOf guard g

namespace Project

/-- Where ids and shortcuts differ, references land on the flows that they name, and these are the
names under which the scripts write the flows. -/
theorem references_land (p : Project) (hd : (p.flows.map Flow.id).Nodup)
    (hs : (shortcutsOf p.flows).Nodup) :
    (∀ guard, FlowNames.Land guard p.flows) ∧
      (∀ names, (Ink.knots p names p.flows).value.map Ink.Knot.name =
        p.flows.map (names.nameOf Ink.digitGuard)) ∧
      ∀ names preamble, (Yarn.allNodes p.sheets names preamble p.flows).value.map
          (fun e => e.2.head?.map Yarn.Node.title) =
        p.flows.map fun f => some (names.nameOf Yarn.digitGuard f) := by
  refine ⟨fun guard => ⟨?_, ?_, fun _ => rfl, ?_⟩, fun names => Ink.names_knots p names _,
    fun names preamble => Yarn.firstTitles_allNodes p.sheets names preamble _⟩
  · intro f hf t ht hne
    exact FlowNames.resolve_of_id hf (by simp [given, ht, hne])
  · intro f hf t ht shortcut hts hfs
    have hne : shortcut ≠ "" := by simpa using (Option.filter_eq_some_iff.mp hfs).2
    have hgiven : given t.shortcut = some shortcut := by simp [given, hts, hne]
    exact FlowNames.resolve_of_shortcut ht hgiven (FlowNames.lookup_byShortcut_of_mem hs hf hfs)
  · intro f hf g hg hne he
    exact hne (FlowNames.nameOf_injOn hd hf hg he)

/-- Two flows with one identifier, one whose name starts with a digit, and one with both. -/
def market (id : String) : Project where
  info := ⟨"1", "Market", none, none, []⟩
  sheets := []
  flows := [⟨id, some "fish.stall", "Fish", none, none, true, [], [], []⟩,
    ⟨"2", some "fish-stall", "Fish", none, none, false, [], [], []⟩,
    ⟨"3", none, "1st", none, none, false, [], [], []⟩,
    ⟨"4", some "", "1st", none, none, false, [], [], []⟩]
  scenes := []
  screenplays := []
  localization := .empty
  assets := []

theorem market_references_land : let p := market "1"
    let names := FlowNames.ofFlows "_" p.flows
    (p.flows.map Flow.id).Nodup ∧ (shortcutsOf p.flows).Nodup ∧
      p.flows.map (names.nameOf "_") = ["fish_stall", "fish_stall_2", "_1st", "_1st_4"] ∧
      names.resolve "_" ⟨some "4", none⟩ = some "_1st_4" ∧
      names.resolve "_" ⟨some "5", some "fish-stall"⟩ = some "fish_stall_2" := by
  intro p names
  have hd : (p.flows.map Flow.id).Nodup := by decide
  have hs : (shortcutsOf p.flows).Nodup := by decide
  have hland : FlowNames.Land "_" p.flows := (references_land p hd hs).1 "_"
  have hsecond : names.nameOf "_" p.flows[1] = "fish_stall_2" := by decide +kernel
  have hfourth : names.nameOf "_" p.flows[3] = "_1st_4" := by decide +kernel
  refine ⟨hd, hs, by decide +kernel, ?_, ?_⟩
  · rw [← hfourth]
    exact hland.byId p.flows[3] (List.getElem_mem _) _ rfl (by decide)
  · rw [← hsecond]
    exact hland.byShortcut p.flows[1] (List.getElem_mem _) _ (by decide) _ rfl rfl

/-- A flow with an empty id is not found by it. -/
theorem market_reference_lost : let flows := (market "").flows
    (flows.map Flow.id).Nodup ∧ (shortcutsOf flows).Nodup ∧ ∃ f ∈ flows,
      (FlowNames.ofFlows "_" flows).resolve "_" ⟨some f.id, none⟩ ≠
        some ((FlowNames.ofFlows "_" flows).nameOf "_" f) := by
  decide +kernel

end Project

end StoryFlow
