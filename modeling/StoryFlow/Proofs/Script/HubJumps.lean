import StoryFlow.Proofs.Graph.Labels
import StoryFlow.Proofs.Script.Transfers

/-! # Jumps to hubs

A jump that a hub was found for holds the label of the hub, and the hub has its section. What is
written for it is the transfer to that section, unless the hub has the label that jumps without a hub
hold: then the story stops there, as it does at those.
-/

namespace StoryFlow

namespace Linearize

variable {index : Index}

/-- A jump step holds the target of the jump of its node. -/
def HoldsTarget (index : Index) : Step → Prop
  | .jump id j target => target = jumpTarget index id j
  | _ => True

/-- The target of a jump that a hub was found for is the label of the hub. -/
theorem jumpTarget_of_hub {id hub : String} {j : Jump} {h : Hub} (hj : j.flowShortcut = none)
    (hh : jumpHub index id j = some (hub, h)) : jumpTarget index id j = h.labelAt hub := by
  simp [jumpTarget, hj, hh]

end Linearize

namespace Flow

open Linearize

variable {f : Flow} {n : Node} {j : Jump} {hub target : String} {h : Hub}

theorem holdsTarget_linearize (f : Flow) : ∀ s ∈ f.linearize.steps, HoldsTarget f.index s := by
  refine f.forall_linearize ?_ (fun _ _ _ _ => trivial) fun _ _ _ _ => rfl
  intro s hs
  cases s
  case jump => exact absurd trivial hs
  all_goals trivial

theorem target_of_hubJump {id : String} (hm : .jump id j target ∈ f.linearize.steps)
    (hj : j.flowShortcut = none) (hh : jumpHub f.index id j = some (hub, h)) :
    target = h.labelAt hub :=
  (f.holdsTarget_linearize _ hm).trans (jumpTarget_of_hub hj hh)

/-- A jump that can be reached has its step. -/
theorem Arrives.jump_mem (hd : (f.nodes.map Node.id).Nodup) (hn : n ∈ f.nodes)
    (ha : f.Arrives n.id) (hb : n.body = .jump j) (hj : j.flowShortcut = none)
    (hh : jumpHub f.index n.id j = some (hub, h)) :
    .jump n.id j (h.labelAt hub) ∈ f.linearize.steps := by
  obtain ⟨s, hs, ho⟩ := (ha.written hd hn).1 (by simp [Node.IsWritten, hb])
  cases s with
  | jump id i target =>
    obtain ⟨rfl, hi⟩ := ho
    obtain rfl : i = j := by simpa [hb] using hi.symm
    rwa [f.target_of_hubJump hs hj hh] at hs
  | dialogue | conditionStart | instruction | scene | subflow => simp [Step.Opens, hb] at ho
  | exit => simp [Step.Opens, hb] at ho
  | choicesStart | choice | choicesEnd | conditionBranch | conditionEnd | divert => exact ho.elim

/-- The hub that a jump leads to has a section with its label. -/
theorem Arrives.jump_section (hd : (f.nodes.map Node.id).Nodup) (hn : n ∈ f.nodes)
    (ha : f.Arrives n.id) (hb : n.body = .jump j) (hj : j.flowShortcut = none)
    (hh : jumpHub f.index n.id j = some (hub, h)) :
    ∃ s ∈ f.linearize.sections, s.kind = .hub ∧ s.node = hub ∧ s.label = h.labelAt hub := by
  have hg := f.index_coherent.hub_of_jumpHub hh
  obtain ⟨m, hm⟩ := f.index_coherent.node_of_hub hg
  have hmb := body_of_hub? hd hm hg
  have hahub : f.Arrives hub := ha.jump ((node?_eq_some_iff hd).mpr ⟨hn, rfl⟩) hb hj hh
  obtain ⟨hmem, rfl⟩ := (node?_eq_some_iff hd).mp hm
  obtain ⟨s, hs, hk, hid⟩ := (hahub.written hd hmem).2 h hmb
  obtain ⟨m', hm', g, hb', hid', hl⟩ := hub_of_section hd hs hk
  obtain rfl := List.inj_on_of_nodup_map hd hm' hmem (hid'.trans hid)
  obtain rfl : g = h := by simpa [hmb] using hb'.symm
  exact ⟨s, hs, hk, hid, hl⟩

end Flow

namespace Yarn

/-- What a flow of a project is exported with has the node of a section, and writes a step as the one
line with a content. -/
structure Writes (p : Project) (threshold : Nat) (f : Flow) (t : Section) (s : Step)
    (content : Content) : Prop where
  target : ⟨sectionTitle ((FlowNames.ofFlows digitGuard p.flows).nameOf digitGuard f) t.label,
      (lines (flowContext p (.ofFlows digitGuard p.flows) f) t.steps).value⟩ ∈
    fileNodes (scriptFiles threshold p (.ofFlows digitGuard p.flows)).value
  only : ∀ l, (stepLines (flowContext p (.ofFlows digitGuard p.flows) f) l s).value =
    [⟨l.depth, content⟩]
  stands : ∃ node ∈ fileNodes (scriptFiles threshold p (.ofFlows digitGuard p.flows)).value,
    ∃ depth, ⟨depth, content⟩ ∈ node.body

variable {p : Project} {f : Flow} {t : Section} {id target : String} {j : Jump}

theorem writes_jump (threshold : Nat) (hf : f ∈ p.flows) (ht : t ∈ f.linearize.sections)
    (hs : .jump id j target ∈ f.linearize.steps) :
    Writes p threshold f t (.jump id j target)
      (jumpContent (flowContext p (.ofFlows digitGuard p.flows) f) j target) where
  target := section_written _ threshold hf ht
  only _ := rfl
  stands := by
    obtain ⟨l, node, hnode, hlines⟩ :=
      step_written (.ofFlows digitGuard p.flows) threshold hf hs
    exact ⟨node, hnode, l.depth, hlines List.mem_cons_self⟩

end Yarn

namespace Ink

/-- The knot of a flow of a project has the stitch of a section, and a step is written as the one line
with a content. -/
structure Writes (p : Project) (f : Flow) (t : Section) (s : Step) (content : Content) : Prop where
  knot_mem : (knot p (.ofFlows digitGuard p.flows) f).value ∈
    (knots p (.ofFlows digitGuard p.flows) p.flows).value
  target : ⟨stitchName t.label,
      (lines (flowContext p (.ofFlows digitGuard p.flows) f) t.steps).value⟩ ∈
    (knot p (.ofFlows digitGuard p.flows) f).value.stitches
  only : ∀ l, (stepLines (flowContext p (.ofFlows digitGuard p.flows) f) l s).value =
    [⟨l.now.depth, content⟩]
  stands : ∃ depth, ⟨depth, content⟩ ∈ (knot p (.ofFlows digitGuard p.flows) f).value.allLines

variable {p : Project} {f : Flow} {t : Section} {id target : String} {j : Jump}

theorem writes_jump (hf : f ∈ p.flows) (ht : t ∈ f.linearize.sections)
    (hs : .jump id j target ∈ f.linearize.steps) :
    Writes p f t (.jump id j target)
      (.divert (jumpTarget (flowContext p (.ofFlows digitGuard p.flows) f) j target)) where
  knot_mem := by
    rw [knots_value]
    exact List.mem_map.mpr ⟨f, hf, rfl⟩
  target := by
    rw [stitches_knot]
    exact List.mem_map.mpr ⟨t, ht, rfl⟩
  only _ := rfl
  stands := by
    obtain ⟨l, hlines⟩ := stepLines_subset_knot p (.ofFlows digitGuard p.flows) hs
    exact ⟨l.now.depth, hlines List.mem_cons_self⟩

end Ink

namespace Project

/-- A jump that can be reached and leads to a hub has its step, which holds the label of the hub, and
the hub has a section. Each script has that section and writes the step as a transfer to it, exactly
when the label is not the word that stands for no hub. -/
theorem hub_jumps_written (p : Project) (threshold : Nat) {f : Flow} (hf : f ∈ p.flows)
    (hd : (f.nodes.map Node.id).Nodup) {n : Node} (hn : n ∈ f.nodes) (ha : f.Arrives n.id)
    {j : Jump} (hb : n.body = .jump j) (hj : j.flowShortcut = none) {hub : String} {h : Hub}
    (hh : Linearize.jumpHub f.index n.id j = some (hub, h)) :
    let label := h.labelAt hub
    .jump n.id j label ∈ f.linearize.steps ∧
    (∀ target, .jump n.id j target ∈ f.linearize.steps → target = label) ∧
    ∃ t ∈ f.linearize.sections, t.kind = .hub ∧ t.node = hub ∧ t.label = label ∧
      Yarn.Writes p threshold f t (.jump n.id j label)
        (if label = "unknown" then .stop
        else .jump (Yarn.sectionTitle
          ((FlowNames.ofFlows Yarn.digitGuard p.flows).nameOf Yarn.digitGuard f) label)) ∧
      Ink.Writes p f t (.jump n.id j label)
        (.divert (if label = "unknown" then Ink.ending
        else Ink.stitchTarget
          (Ink.flowContext p (.ofFlows Ink.digitGuard p.flows) f) label)) := by
  intro label
  have hs : .jump n.id j label ∈ f.linearize.steps := ha.jump_mem hd hn hb hj hh
  obtain ⟨t, ht, hk, hid, hl⟩ := ha.jump_section hd hn hb hj hh
  refine ⟨hs, fun target hm => f.target_of_hubJump hm hj hh, t, ht, hk, hid, hl, ?_, ?_⟩
  · have hwrites := Yarn.writes_jump threshold hf ht hs
    rwa [Yarn.jumpContent, hj] at hwrites
  · have hwrites := Ink.writes_jump hf ht hs
    rwa [Ink.jumpTarget, hj] at hwrites

/-- A flow that jumps to a hub with a label. -/
def ferry (label : String) : Flow where
  id := "1"
  shortcut := some "ferry"
  name := "Ferry"
  description := none
  parentId := none
  isMain := true
  settings := []
  nodes := [.ofStored "start" "entry" [] none none,
    .ofStored "leave" "jump" [("hub_id", .str "isle")] none none,
    .ofStored "isle" "hub" [("label", .str label)] none none]
  connections := [⟨none, "start", "output", "leave", none, none⟩]

theorem ferry_arrives (label : String) : (ferry label).Arrives "leave" := by
  have hstart : (ferry label).Arrives "start" :=
    .entry (n := .ofStored "start" "entry" [] none none) rfl
  exact hstart.edge (.node (n := .ofStored "start" "entry" [] none none)
    (c := ⟨none, "start", "output", "leave", none, none⟩) List.mem_cons_self rfl trivial)

def ferryJump : Jump := ⟨some "isle", none⟩

theorem ferry_jump_written :
    let f := ferry "Dock"
    (f.nodes.map Node.id).Nodup ∧ f.Arrives "leave" ∧
      Linearize.jumpHub f.index "leave" ferryJump = some ("isle", ⟨some "Dock", none, none⟩) ∧
      ∃ t ∈ f.linearize.sections, t.label = "Dock" ∧
        Yarn.Writes (ofFlows [f]) 5 f t (.jump "leave" ferryJump "Dock") (.jump "ferry_Dock") ∧
        Ink.Writes (ofFlows [f]) f t (.jump "leave" ferryJump "Dock") (.divert "ferry.Dock") := by
  intro f
  have hd : (f.nodes.map Node.id).Nodup := by decide
  have hh : Linearize.jumpHub f.index "leave" ferryJump =
      some ("isle", ⟨some "Dock", none, none⟩) := by decide +kernel
  have hl : Hub.labelAt ⟨some "Dock", none, none⟩ "isle" = "Dock" := by decide +kernel
  have hyarn : Yarn.sectionTitle
      ((FlowNames.ofFlows Yarn.digitGuard [f]).nameOf Yarn.digitGuard f) "Dock" = "ferry_Dock" := by
    decide +kernel
  have hink : Ink.stitchTarget
      (Ink.flowContext (ofFlows [f]) (.ofFlows Ink.digitGuard [f]) f) "Dock" = "ferry.Dock" := by
    decide +kernel
  obtain ⟨-, -, t, ht, -, -, htl, hy, hi⟩ := hub_jumps_written (ofFlows [f]) 5
    List.mem_cons_self hd (n := .ofStored "leave" "jump" [("hub_id", .str "isle")] none none)
    (by simp [f, ferry]) (ferry_arrives "Dock") (j := ferryJump) rfl rfl hh
  rw [hl] at htl hy hi
  rw [if_neg (by decide)] at hy hi
  exact ⟨hd, ferry_arrives "Dock", hh, t, ht, htl, hyarn ▸ hy, hink ▸ hi⟩

/-- The hub of a jump has its section, and the jump ends the story. -/
theorem ferry_jump_stops :
    let f := ferry "unknown"
    let nodes := Yarn.fileNodes
      (Yarn.scriptFiles 5 (ofFlows [f]) (.ofFlows Yarn.digitGuard [f])).value
    let knots := (Ink.knots (ofFlows [f]) (.ofFlows Ink.digitGuard [f]) [f]).value
    f.Arrives "leave" ∧
      (Linearize.jumpHub f.index "leave" ferryJump).map Prod.fst = some "isle" ∧
      Yarn.titles nodes = ["ferry", "ferry_unknown"] ∧
      nodes.flatMap Yarn.Node.body = [⟨0, .stop⟩] ∧
      Ink.addresses knots = ["ferry", "ferry.unknown"] ∧ Ink.targets knots = [Ink.ending] := by
  intro f nodes knots
  refine ⟨ferry_arrives "unknown", ?_⟩
  decide +kernel

end Project

end StoryFlow
