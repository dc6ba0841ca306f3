import StoryFlow.Proofs.Graph.Reach
import StoryFlow.Proofs.Graph.Targets

/-! # Labels of sections

The label of a join section is a free one, so no other section of the flow has it. A hub section
has the label of its hub, and nothing keeps two hubs from having one label. The labels of a flow
differ exactly when those of the hubs that can be reached do.
-/

namespace StoryFlow

namespace Linearize

variable {index : Index} {entry : Node} {script : LinearScript} {p q : Progress} {s t : Section}

/-- A hub section has the label of its hub, a join section the one on record for its node. -/
def Labelled (index : Index) (q : Progress) (s : Section) : Prop :=
  match s.kind with
  | .hub => ∃ h, index.hub? s.node = some h ∧ s.label = h.labelAt s.node
  | .join => (s.node, s.label) ∈ q.joinLabels

theorem ScriptRun.labelled (hc : index.Coherent) (h : ScriptRun index entry script p q)
    (hs : s ∈ script.sections) : Labelled index q s := by
  obtain ⟨pending, _, _, hr, ha, -, hx, -⟩ := h.written hc s hs
  cases hr with
  | @hub id g =>
    simp only [Labelled]
    exact ⟨g, ha.2, rfl⟩
  | join => exact hx.joins ha.1

/-- No hub has the label on record for a join section. -/
theorem Sound.join_label_ne (hq : Sound index q) (hs : s.kind = .join) (ht : t.kind = .hub)
    (hls : Labelled index q s) (hlt : Labelled index q t) : s.label ≠ t.label := by
  rw [Labelled, hs] at hls
  rw [Labelled, ht] at hlt
  obtain ⟨g, hg, hl⟩ := hlt
  intro he
  refine hq.labels_fresh s.label (List.mem_map.mpr ⟨_, hls, rfl⟩) ?_
  rw [he, hl]
  exact Index.mem_hubLabels hg

/-- Two sections with one label are the same, or they are hub sections. -/
theorem Sound.key_eq_of_label_eq (hq : Sound index q) (hls : Labelled index q s)
    (hlt : Labelled index q t) (he : s.label = t.label) :
    s.key = t.key ∨ s.kind = .hub ∧ t.kind = .hub := by
  cases hs : s.kind with
  | hub =>
    cases ht : t.kind with
    | hub => exact Or.inr ⟨rfl, rfl⟩
    | join => exact absurd he.symm (hq.join_label_ne ht hs hlt hls)
  | join =>
    cases ht : t.kind with
    | hub => exact absurd he (hq.join_label_ne hs ht hls hlt)
    | join =>
      rw [Labelled, hs] at hls
      rw [Labelled, ht, ← he] at hlt
      have hn := List.inj_on_of_nodup_map hq.labels_nodup hls hlt rfl
      exact Or.inl (by rw [Section.key, Section.key, hs, ht, (Prod.mk.inj hn).1])

end Linearize

namespace Flow

open Linearize

variable {f : Flow} {s t : Section}

theorem label_eq_linearize (hs : s ∈ f.linearize.sections) (ht : t ∈ f.linearize.sections)
    (he : s.label = t.label) : s = t ∨ s.kind = .hub ∧ t.kind = .hub := by
  have hc := f.index_coherent
  cases hen : f.index.entry with
  | none => simp [f.linearize_of_no_entry hen] at hs
  | some entry =>
    obtain ⟨p, q, h⟩ := scriptRun_linearize hc hen
    refine ((h.sound hc).key_eq_of_label_eq (h.labelled hc hs) (h.labelled hc ht) he).imp_left ?_
    exact List.inj_on_of_nodup_map f.nodup_sections_linearize hs ht

/-- A label is made of that of a hub or of the id of a node. -/
theorem label_of_section (hs : s ∈ f.linearize.sections) :
    (∃ h : Hub, s.label = h.labelAt s.node) ∨
      ∃ taken, s.label = freshName taken (Text.identifier ("node_" ++ s.node)) := by
  have hc := f.index_coherent
  cases hen : f.index.entry with
  | none => simp [f.linearize_of_no_entry hen] at hs
  | some entry =>
    obtain ⟨p, q, h⟩ := scriptRun_linearize hc hen
    have hl := h.labelled hc hs
    cases hk : s.kind with
    | hub =>
      rw [Labelled, hk] at hl
      obtain ⟨g, -, hl⟩ := hl
      exact Or.inl ⟨g, hl⟩
    | join =>
      rw [Labelled, hk] at hl
      exact Or.inr ((h.sound hc).labels_named _ hl)

/-- With distinct ids, a hub section is that of a hub that can be reached. -/
theorem hub_of_section (hd : (f.nodes.map Node.id).Nodup) (hs : s ∈ f.linearize.sections)
    (hk : s.kind = .hub) :
    ∃ n ∈ f.nodes, ∃ h, n.body = .hub h ∧ n.id = s.node ∧ s.label = h.labelAt n.id := by
  have hc := f.index_coherent
  cases hen : f.index.entry with
  | none => simp [f.linearize_of_no_entry hen] at hs
  | some entry =>
    obtain ⟨p, q, h⟩ := scriptRun_linearize hc hen
    have hl := h.labelled hc hs
    rw [Labelled, hk] at hl
    obtain ⟨g, hg, hl⟩ := hl
    obtain ⟨n, hn⟩ := hc.node_of_hub hg
    obtain ⟨hm, hid⟩ := (node?_eq_some_iff hd).mp hn
    exact ⟨n, hm, g, body_of_hub? hd hn hg, hid, hid ▸ hl⟩

/-- The hubs that can be reached have different labels. -/
def HubLabelsDiffer (f : Flow) : Prop :=
  ∀ m ∈ f.nodes, ∀ n ∈ f.nodes, ∀ g h, m.body = .hub g → n.body = .hub h →
    f.Arrives m.id → f.Arrives n.id → g.labelAt m.id = h.labelAt n.id → m = n

/-- With distinct ids, two sections have one label only when both are hub sections, and the labels
of all sections differ exactly when those of the hubs that can be reached do. -/
theorem labels_linearize (f : Flow) (hd : (f.nodes.map Node.id).Nodup) :
    (∀ s ∈ f.linearize.sections, ∀ t ∈ f.linearize.sections, s.label = t.label →
      s = t ∨ s.kind = .hub ∧ t.kind = .hub) ∧
    ((f.linearize.sections.map Section.label).Nodup ↔ f.HubLabelsDiffer) := by
  refine ⟨fun s hs t ht => label_eq_linearize hs ht, ?_⟩
  have hsections : f.linearize.sections.Nodup := .of_map _ f.nodup_sections_linearize
  rw [List.nodup_map_iff_inj_on hsections]
  constructor
  · intro hinj m hm n hn g h hmb hnb ham han hl
    obtain ⟨s, hs, hsk, hsn⟩ := (ham.written hd hm).2 g hmb
    obtain ⟨t, ht, htk, htn⟩ := (han.written hd hn).2 h hnb
    obtain ⟨m', hm', g', hmb', hmid, hsl⟩ := hub_of_section hd hs hsk
    obtain ⟨n', hn', h', hnb', hnid, htl⟩ := hub_of_section hd ht htk
    obtain rfl := List.inj_on_of_nodup_map hd hm' hm (hmid.trans hsn)
    obtain rfl := List.inj_on_of_nodup_map hd hn' hn (hnid.trans htn)
    obtain rfl : g' = g := by simpa [hmb] using hmb'.symm
    obtain rfl : h' = h := by simpa [hnb] using hnb'.symm
    have hst := hinj s hs t ht (hsl.trans (hl.trans htl.symm))
    exact List.inj_on_of_nodup_map hd hm hn (by rw [← hsn, ← htn, hst])
  · intro hdiffer s hs t ht he
    rcases label_eq_linearize hs ht he with hst | ⟨hsk, htk⟩
    · exact hst
    · obtain ⟨m, hm, g, hmb, hmid, hsl⟩ := hub_of_section hd hs hsk
      obtain ⟨n, hn, h, hnb, hnid, htl⟩ := hub_of_section hd ht htk
      have ha := f.arrives_of_mem_linearize.2
      obtain rfl := hdiffer m hm n hn g h hmb hnb (hmid ▸ ha s hs) (hnid ▸ ha t ht)
        (hsl.symm.trans (he.trans htl))
      refine List.inj_on_of_nodup_map f.nodup_sections_linearize hs ht ?_
      rw [Section.key, Section.key, hsk, htk, ← hmid, ← hnid]

/-- An entry that leads to a hub, which leads to another one. -/
def camps (north south : String) : Flow where
  id := "1"
  shortcut := none
  name := "Camps"
  description := none
  parentId := none
  isMain := true
  settings := []
  nodes := [.ofStored "start" "entry" [] none none,
    .ofStored "north" "hub" [("label", .str north)] none none,
    .ofStored "south" "hub" [("label", .str south)] none none]
  connections := [⟨none, "start", "output", "north", none, none⟩,
    ⟨none, "north", "output", "south", none, none⟩]

theorem camps_labels_differ :
    ((camps "Hill" "Lake").nodes.map Node.id).Nodup ∧ (camps "Hill" "Lake").HubLabelsDiffer ∧
      (camps "Hill" "Lake").linearize.sections.map Section.label = ["Hill", "Lake"] := by
  have hd : ((camps "Hill" "Lake").nodes.map Node.id).Nodup := by decide
  have hl : (camps "Hill" "Lake").linearize.sections.map Section.label = ["Hill", "Lake"] := by
    decide +kernel
  refine ⟨hd, (labels_linearize _ hd).2.mp ?_, hl⟩
  rw [hl]
  decide

theorem camps_labels_equal : ((camps "Camp" "Camp").nodes.map Node.id).Nodup ∧
    ¬ ((camps "Camp" "Camp").linearize.sections.map Section.label).Nodup := by
  decide +kernel

end Flow

end StoryFlow
