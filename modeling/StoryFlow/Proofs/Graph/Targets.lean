import Mathlib.Data.List.Perm.Subperm
import Mathlib.Data.Prod.Basic
import StoryFlow.Proofs.Graph.Covers
import StoryFlow.Proofs.Graph.Origin

/-! # Targets and sections correspond

A divert or a jump inside a flow asks for the section that it leads to, and a section is asked for
by nothing else. Since every section that was asked for is written, once, the targets of a script
are the labels of its sections.
-/

namespace StoryFlow

/-- A step leads to the section with a label, by a divert or by a jump inside the flow. -/
def Step.LeadsTo (label : String) : Step → Prop
  | .divert target => target = label
  | .jump _ j target => j.flowShortcut = none ∧ target = label
  | _ => False

/-- A step that leads somewhere inside the flow leads to one of the given labels. A jump that no
hub was found for leads nowhere. -/
def Step.Lands (R : String → Prop) : Step → Prop
  | .divert target => R target
  | .jump _ j target => j.flowShortcut = none → target ≠ "unknown" → R target
  | _ => True

theorem Step.Lands.imp {R R' : String → Prop} {s : Step} (h : s.Lands R)
    (hr : ∀ label, R label → R' label) : s.Lands R' := by
  cases s with
  | divert target => exact hr _ h
  | jump id j target => exact fun hj ht => hr _ (h hj ht)
  | _ => trivial

/-- What tells a section from the others. -/
def Section.key (s : Section) : SectionKind × String :=
  (s.kind, s.node)

namespace Linearize

variable {index : Index} {path : List String} {task : Task} {p q r : Progress}
  {ss ts : List Step} {label : String} {node : Node}

/-- A section with the label was asked for. -/
def HasLabel (index : Index) (p : Progress) (label : String) : Prop :=
  (∃ id h, id ∈ p.hubsSeen ∧ index.hub? id = some h ∧ h.labelAt id = label) ∨
    ∃ id, (id, label) ∈ p.joinLabels

theorem HasLabel.extends (h : HasLabel index p label) (hx : Extends p q) :
    HasLabel index q label := by
  rcases h with ⟨id, g, hi, hg⟩ | ⟨id, hi⟩
  · exact Or.inl ⟨id, g, hx.hubs hi, hg⟩
  · exact Or.inr ⟨id, hx.joins hi⟩

/-- Between two progresses, the steps lead to what was asked for, and nothing else was. -/
structure Landing (index : Index) (p : Progress) (ss : List Step) (q : Progress) : Prop where
  lands : ∀ s ∈ ss, s.Lands (HasLabel index q)
  led : ∀ label, HasLabel index q label → HasLabel index p label ∨ ∃ s ∈ ss, s.LeadsTo label

theorem Landing.of_settled (h : ∀ s ∈ ss, s.Lands (HasLabel index p)) : Landing index p ss p :=
  ⟨h, fun _ hl => Or.inl hl⟩

theorem Landing.nil (index : Index) (p : Progress) : Landing index p [] p :=
  .of_settled (by simp)

theorem Landing.append (h : Landing index p ss q) (h' : Landing index q ts r) (hx : Extends q r) :
    Landing index p (ss ++ ts) r := by
  constructor
  · intro s hs
    rcases List.mem_append.mp hs with hs | hs
    · exact (h.lands s hs).imp fun _ hl => hl.extends hx
    · exact h'.lands s hs
  · intro label hl
    rcases h'.led label hl with hl | ⟨s, hs, ht⟩
    · refine (h.led label hl).imp_right ?_
      rintro ⟨s, hs, ht⟩
      exact ⟨s, List.mem_append_left _ hs, ht⟩
    · exact Or.inr ⟨s, List.mem_append_right _ hs, ht⟩

/-- Asking for a hub goes with a step that leads to it. -/
theorem Landing.addHub (p : Progress) {id : String} {h : Hub} (hh : index.hub? id = some h)
    {s : Step} (hs : ∀ R : String → Prop, R (h.labelAt id) → s.Lands R)
    (ht : s.LeadsTo (h.labelAt id)) : Landing index p [s] (p.addHub id h) := by
  by_cases hi : id ∈ p.hubsSeen
  · rw [Progress.addHub_of_mem h hi]
    exact .of_settled (List.forall_mem_singleton.mpr (hs _ (Or.inl ⟨id, h, hi, hh, rfl⟩)))
  · rw [Progress.addHub_of_not_mem h hi]
    constructor
    · exact List.forall_mem_singleton.mpr (hs _ (Or.inl ⟨id, h, List.mem_cons_self, hh, rfl⟩))
    · rintro label (⟨a, g, ha, hg, rfl⟩ | hj)
      · rcases List.mem_cons.mp ha with rfl | ha
        · obtain rfl := Option.some.inj (hh.symm.trans hg)
          exact Or.inr ⟨s, List.mem_singleton_self s, ht⟩
        · exact Or.inl (Or.inl ⟨a, g, ha, hg, rfl⟩)
      · exact Or.inl (Or.inr hj)

/-- Asking for a join section goes with the divert to it. -/
theorem Landing.addJoin (index : Index) (p : Progress) (node : Node) :
    Landing index p [.divert (p.addJoin node).1] (p.addJoin node).2 := by
  constructor
  · exact List.forall_mem_singleton.mpr (Or.inr ⟨node.id, Progress.addJoin_mem p node⟩)
  · intro label hl
    cases hk : p.joinLabels.lookup node.id with
    | some known =>
      rw [Progress.addJoin_of_lookup hk] at hl
      exact Or.inl hl
    | none =>
      rw [Progress.addJoin_of_lookup_none hk] at hl ⊢
      rcases hl with hl | ⟨id, hi⟩
      · exact Or.inl (Or.inl hl)
      · rcases List.mem_cons.mp hi with he | hi
        · obtain ⟨-, rfl⟩ := Prod.mk.inj he
          exact Or.inr ⟨_, List.mem_singleton_self _, rfl⟩
        · exact Or.inl (Or.inr ⟨id, hi⟩)

theorem HasLabel.enter (node : Node) :
    HasLabel index (enter node p) label ↔ HasLabel index p label := by
  unfold Linearize.enter
  split <;> rfl

/-- The steps of a plan that ask for no section lead to none. -/
theorem plan_lands (index : Index) (node : Node) (R : String → Prop) :
    (∀ s ∈ (plan index node).closing, s.Lands R) ∧
      ∀ a ∈ (plan index node).arms, ∀ s ∈ a.heads, s.Lands R := by
  unfold plan
  cases node.body with
  | dialogue d =>
    by_cases hd : d.responses.isEmpty
    · simp [hd]
    · simp only [hd]
      refine ⟨List.forall_mem_singleton.mpr trivial, ?_⟩
      intro a ha
      obtain ⟨k, r, _, rfl⟩ := mem_choiceArms.mp ha
      exact List.forall_mem_singleton.mpr trivial
  | branching b =>
    refine ⟨List.forall_mem_singleton.mpr trivial, ?_⟩
    intro a ha
    obtain ⟨k, c, _, rfl⟩ := mem_branchArms.mp ha
    exact List.forall_mem_singleton.mpr trivial
  | entry | exit | instruction | scene | subflow | hub | jump | unknown => simp

/-- A plan opens with the step that leads to the hub it asks for. -/
theorem landing_opening (hc : index.Coherent) (hn : index.node? node.id = some node)
    (p : Progress) : Landing index p (plan index node).opening (ask (plan index node).hub p) := by
  cases hb : node.body with
  | hub h =>
    simp only [plan, hb]
    exact .addHub p (hc.hub_of_node hn hb) (fun _ hr => hr) rfl
  | jump j =>
    simp only [plan, hb, jumpAsks, jumpTarget]
    cases hj : j.flowShortcut with
    | some shortcut =>
      refine .of_settled (List.forall_mem_singleton.mpr ?_)
      intro hn
      simp [hj] at hn
    | none =>
      cases hh : jumpHub index node.id j with
      | none =>
        refine .of_settled (List.forall_mem_singleton.mpr ?_)
        exact fun _ ht => absurd rfl ht
      | some a =>
        simp only [Option.map_some, Option.getD_some, if_true, ask]
        exact .addHub p (hc.hub_of_jumpHub hh) (fun _ hr _ _ => hr) ⟨hj, rfl⟩
  | dialogue d =>
    simp only [plan, hb]
    split <;> exact .of_settled (by simp [Step.Lands])
  | entry | exit | branching | instruction | scene | subflow | unknown =>
    simp only [plan, hb]
    exact .of_settled (by simp [Step.Lands])

theorem extends_ask (hub : Option (String × Hub)) (p : Progress) : Extends p (ask hub p) := by
  cases hub with
  | none => exact .refl p
  | some a => exact extends_addHub p a.1 a.2

/-- Every hub on the path was asked for, but for one that is only about to be written out. -/
def HubsAsked (index : Index) (path : List String) (p : Progress) (task : Task) : Prop :=
  ∀ n h, index.node? n.id = some n → n.body = .hub h → n.id ∈ path →
    n.id ∈ p.hubsSeen ∨ task = .expand n

theorem HubsAsked.next {task' : Task} (h : HubsAsked index path p task) (hx : Extends p q)
    (ht : ∀ n, task ≠ .expand n) : HubsAsked index path q task' := by
  intro n g hn hb hi
  rcases h n g hn hb hi with hs | he
  · exact Or.inl (hx.hubs hs)
  · exact absurd he (ht n)

theorem HubsAsked.enter (h : HubsAsked index path p (.visit node.id))
    (hn : index.node? node.id = some node) :
    HubsAsked index (node.id :: path) (enter node p) (.expand node) := by
  intro n g hn' hb hi
  rcases List.mem_cons.mp hi with hi | hi
  · rw [hi, hn] at hn'
    exact Or.inr (congrArg _ (Option.some.inj hn'))
  · rcases h n g hn' hb hi with hs | he
    · exact Or.inl ((extends_enter p node).hubs hs)
    · simp at he

theorem HubsAsked.arms (h : HubsAsked index path p (.expand node)) (as : List Arm) :
    HubsAsked index path (ask (plan index node).hub p) (.arms as) := by
  intro n g hn hb hi
  rcases h n g hn hb hi with hs | he
  · exact Or.inl ((extends_ask _ p).hubs hs)
  · obtain rfl : node = n := by simpa using he
    rw [plan_hub_of_hub hb]
    exact Or.inl mem_hubsSeen_ask

/-- The steps of a run lead to what it asks for. The path carries the hub whose section is being
written, to which a step may lead back. -/
theorem Run.landing (hc : index.Coherent) (h : Run index path task p ss q)
    (hk : task.Known index) (hl : task.HeadsAll fun s => ∀ R : String → Prop, s.Lands R)
    (ha : HubsAsked index path p task) : Landing index p ss q := by
  induction h with
  | missing | noEdge | noArm => exact .nil index _
  | @onPath path id node p hn hi =>
    obtain rfl := hc.node_id hn
    refine .of_settled fun s hs => ?_
    obtain ⟨g, hg, rfl⟩ := List.mem_map.mp hs
    have hb : node.body = .hub g := Node.hub?_eq_some_iff.mp (by simpa using hg)
    rcases ha node g hn hb hi with hs | he
    · exact Or.inl ⟨node.id, g, hs, hc.hub_of_node hn hb, rfl⟩
    · simp at he
  | shared => exact .addJoin index _ _
  | @entered path id node p ss q hn _ _ _ ih =>
    obtain rfl := hc.node_id hn
    have h := ih hn trivial (ha.enter hn)
    exact ⟨h.lands, fun label hl => by simpa only [HasLabel.enter] using h.led label hl⟩
  | edge h h' ih ih' =>
    have hx := h.extends hc trivial
    exact (ih trivial trivial (ha.next (.refl _) (by simp))).append
      (ih' trivial trivial (ha.next hx (by simp))) (h'.extends hc trivial)
  | @arm path a as p ss q ts r h h' ih ih' =>
    obtain ⟨hh, hhs⟩ := List.forall_mem_cons.mp hl
    have hx := h.extends hc trivial
    have hx' := h'.extends hc trivial
    have hbody := ih trivial trivial (ha.next (.refl _) (by simp))
    have hrest := ih' trivial hhs (ha.next hx (by simp))
    have hheads : Landing index p a.heads p := .of_settled fun s hs => hh s hs _
    exact hheads.append (hbody.append hrest hx') (hx.trans hx')
  | @expand path node p ss q h ih =>
    have hx := h.extends hc trivial
    have hbody := ih trivial (fun a hm s hs R => (plan_lands index node R).2 a hm s hs) (ha.arms _)
    have hclose : Landing index q (plan index node).closing q :=
      .of_settled (plan_lands index node _).1
    exact (landing_opening hc hk p).append (hbody.append hclose (.refl q)) hx

section Sections

variable {pending : Pending} {t : Section} {sections : List Section} {entry : Node}
  {script : LinearScript}

theorem SectionRun.landing (hc : index.Coherent) (h : SectionRun index pending p t q)
    (ha : Asked index p pending) : Landing index p t.steps q := by
  cases h with
  | @hub id g p ss q h =>
    refine h.landing hc trivial trivial ?_
    intro n _ _ _ hi
    exact Or.inl (List.mem_singleton.mp hi ▸ ha.1)
  | @join node label p ss q h =>
    refine h.landing hc ha.2.1 trivial ?_
    intro n _ hn _ hi
    rw [List.mem_singleton.mp hi, ha.2.1] at hn
    exact Or.inr (congrArg _ (Option.some.inj hn))

theorem Drain.landing (hc : index.Coherent) (h : Drain index p sections r) (hs : Sound index p) :
    Landing index p (sections.flatMap Section.steps) r := by
  induction h with
  | empty => exact .nil index _
  | @next p pending queue t q sections r hq h hd ih =>
    have ha := hs.asked_head hq
    have hs' := h.sound hc ha (hs.pop hq)
    have ht := (h.landing hc ha).append (ih hs') (hd.extends hc hs')
    exact ⟨ht.lands, ht.led⟩

/-- The sections are as many as are waiting or still asked for. -/
theorem Drain.length (hc : index.Coherent) (h : Drain index p sections r) (hs : Sound index p) :
    sections.length + asked p = p.queue.length + asked r := by
  induction h with
  | empty hq => simp [hq]
  | @next p pending queue t q sections r hq h _ ih =>
    have ha := hs.asked_head hq
    have hl : q.queue.length + asked p = queue.length + asked q := h.queue_length hc ha
    have := ih (h.sound hc ha (hs.pop hq))
    rw [hq, List.length_cons, List.length_cons]
    omega

theorem ScriptRun.landing (hc : index.Coherent) (h : ScriptRun index entry script p q) :
    Landing index (start index) script.steps q := by
  have hm := h.main.landing hc trivial trivial (by simp [HubsAsked])
  exact hm.append (h.drain.landing hc (h.sound_main hc)) (h.extends hc)

/-- The keys of what was asked for. -/
def askedKeys (p : Progress) : List (SectionKind × String) :=
  p.hubsSeen.map (.hub, ·) ++ p.joinLabels.map fun j => (.join, j.1)

theorem Sound.nodup_askedKeys (hs : Sound index p) : (askedKeys p).Nodup := by
  have hj : (p.joinLabels.map fun j => (SectionKind.join, j.1)).Nodup := by
    have := hs.joins_nodup.map (Prod.mk_right_injective SectionKind.join)
    rwa [List.map_map] at this
  refine (hs.hubs_nodup.map (Prod.mk_right_injective _)).append hj ?_
  intro key hh hj
  obtain ⟨_, _, rfl⟩ := List.mem_map.mp hh
  obtain ⟨_, _, he⟩ := List.mem_map.mp hj
  simp at he

/-- What was asked for is written once each: it all is, and there are no more sections. -/
theorem ScriptRun.perm_askedKeys (hc : index.Coherent) (h : ScriptRun index entry script p q) :
    (askedKeys q).Perm (script.sections.map Section.key) := by
  have hsub : askedKeys q ⊆ script.sections.map Section.key := by
    intro key hk
    rcases List.mem_append.mp hk with hk | hk
    · obtain ⟨id, hi, rfl⟩ := List.mem_map.mp hk
      obtain ⟨t, ht, hkind, rfl⟩ := h.hub_section hc hi
      exact List.mem_map.mpr ⟨t, ht, by rw [Section.key, hkind]⟩
    · obtain ⟨⟨id, label⟩, hi, rfl⟩ := List.mem_map.mp hk
      obtain ⟨t, ht, hkind, -, rfl⟩ := h.join_section hc hi
      exact List.mem_map.mpr ⟨t, ht, by rw [Section.key, hkind]⟩
  have hmain := h.main.queue_length hc trivial
  have hdrain := h.drain.length hc (h.sound_main hc)
  have hstart : asked (start index) = 0 ∧ (start index).queue.length = 0 := ⟨rfl, rfl⟩
  have hlen : (askedKeys q).length = asked q := by simp [askedKeys, asked]
  refine (List.subperm_of_subset (h.sound hc).nodup_askedKeys hsub).perm_of_length_le ?_
  rw [List.length_map, hlen]
  omega

theorem ScriptRun.hasLabel_iff (hc : index.Coherent) (h : ScriptRun index entry script p q) :
    HasLabel index q label ↔ ∃ t ∈ script.sections, t.label = label := by
  constructor
  · rintro (⟨id, g, hi, hg, rfl⟩ | ⟨id, hi⟩)
    · obtain ⟨t, ht, hk, rfl⟩ := h.hub_section hc hi
      obtain ⟨pending, _, _, hr, ha, -⟩ := h.written hc t ht
      cases hr with
      | @hub id g' p ss q =>
        obtain rfl := Option.some.inj (hg.symm.trans ha.2)
        exact ⟨_, ht, by dsimp only⟩
      | join => simp at hk
    · obtain ⟨t, ht, -, hl, -⟩ := h.join_section hc hi
      exact ⟨t, ht, hl⟩
  · rintro ⟨t, ht, rfl⟩
    obtain ⟨pending, _, _, hr, ha, -, hx, -⟩ := h.written hc t ht
    cases hr with
    | @hub id g =>
      exact Or.inl ⟨id, g, hx.hubs ha.1, ha.2, by dsimp only⟩
    | @join node => exact Or.inr ⟨node.id, hx.joins ha.1⟩

end Sections

end Linearize

/-- The steps that lead somewhere inside the flow lead to its sections. -/
theorem Flow.lands_linearize (f : Flow) :
    ∀ s ∈ f.linearize.steps, s.Lands fun label => ∃ t ∈ f.linearize.sections, t.label = label := by
  have hc := f.index_coherent
  cases he : f.index.entry with
  | none => simp [f.linearize_of_no_entry he, LinearScript.steps]
  | some entry =>
    obtain ⟨p, q, h⟩ := Linearize.scriptRun_linearize hc he
    intro s hs
    exact ((h.landing hc).lands s hs).imp fun _ hl => (h.hasLabel_iff hc).mp hl

/-- Every section has a step that leads to it. -/
theorem Flow.led_linearize (f : Flow) :
    ∀ t ∈ f.linearize.sections, ∃ s ∈ f.linearize.steps, s.LeadsTo t.label := by
  have hc := f.index_coherent
  cases he : f.index.entry with
  | none => simp [f.linearize_of_no_entry he]
  | some entry =>
    obtain ⟨p, q, h⟩ := Linearize.scriptRun_linearize hc he
    intro t ht
    rcases (h.landing hc).led t.label ((h.hasLabel_iff hc).mpr ⟨t, ht, rfl⟩) with hs | hs
    · simp [Linearize.HasLabel, Linearize.start] at hs
    · exact hs

theorem Flow.nodup_sections_linearize (f : Flow) :
    (f.linearize.sections.map Section.key).Nodup := by
  have hc := f.index_coherent
  cases he : f.index.entry with
  | none => simp [f.linearize_of_no_entry he]
  | some entry =>
    obtain ⟨p, q, h⟩ := Linearize.scriptRun_linearize hc he
    exact (h.perm_askedKeys hc).nodup_iff.mp (h.sound hc).nodup_askedKeys

/-- Every divert, and every jump inside the flow that a hub was found for, leads to a section;
every section has a step that leads to it; and no two sections are of one kind and node. -/
theorem Flow.targets_linearize (f : Flow) :
    (∀ label, .divert label ∈ f.linearize.steps → ∃ t ∈ f.linearize.sections, t.label = label) ∧
    (∀ id j label, .jump id j label ∈ f.linearize.steps → j.flowShortcut = none →
      label ≠ "unknown" → ∃ t ∈ f.linearize.sections, t.label = label) ∧
    (∀ t ∈ f.linearize.sections, ∃ s ∈ f.linearize.steps, s.LeadsTo t.label) ∧
    (f.linearize.sections.map Section.key).Nodup := by
  refine ⟨?_, ?_, f.led_linearize, f.nodup_sections_linearize⟩
  · intro label hm
    exact f.lands_linearize _ hm
  · intro id j label hm hj hu
    exact f.lands_linearize _ hm hj hu

end StoryFlow
