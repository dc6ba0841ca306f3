import StoryFlow.Proofs.Graph.Within

/-! # Scripts cover what is reachable

An arrival that is skipped is at a node of the path, at one that was written before, or at one
that waits for its section. So the nodes that are entered in the course of a script are closed
under followed edges and jumps, and everything reachable is among them.
-/

namespace StoryFlow.Linearize

variable {index : Index} {path path' entered entered' : List String} {p q r : Progress}
  {ss ts : List Step}

/-- A node that is entered, on the path or written already need not be visited again. -/
def Met (index : Index) (path : List String) (p : Progress) (entered : List String)
    (id : String) : Prop :=
  index.node? id = none ∨ id ∈ entered ∨ id ∈ path ∨ id ∈ p.expanded

theorem Met.weaken {id : String} (h : Met index path q entered id)
    (he : ∀ a ∈ q.expanded, a ∈ p.expanded ∨ a ∈ entered')
    (hp : ∀ a ∈ path, a ∈ path' ∨ a ∈ entered') (hs : entered ⊆ entered') :
    Met index path' p entered' id := by
  rcases h with h | h | h | h
  · exact Or.inl h
  · exact Or.inr (Or.inl (hs h))
  · rcases hp id h with h | h
    · exact Or.inr (Or.inr (Or.inl h))
    · exact Or.inr (Or.inl h)
  · rcases he id h with h | h
    · exact Or.inr (Or.inr (Or.inr h))
    · exact Or.inr (Or.inl h)

/-- The nodes that were entered between two progresses were written out, and what they lead to has
been met or asked for. -/
structure Covers (index : Index) (path : List String) (p : Progress) (ss : List Step)
    (q : Progress) (entered : List String) : Prop where
  expanded : ∀ id ∈ q.expanded, id ∈ p.expanded ∨ id ∈ entered
  edges : ∀ {n e}, index.node? n.id = some n → n.id ∈ entered → e ∈ index.outgoing n.id →
    n.Follows e.pin → Met index path p entered e.target
  asked : ∀ {n a}, index.node? n.id = some n → n.id ∈ entered → (plan index n).hub = some a →
    a.1 ∈ q.hubsSeen
  opening : ∀ {n}, index.node? n.id = some n → n.id ∈ entered → (plan index n).opening ⊆ ss

theorem Covers.nil (index : Index) (path : List String) {p q : Progress}
    (he : q.expanded = p.expanded) (ss : List Step) : Covers index path p ss q [] where
  expanded id hi := Or.inl (he ▸ hi)
  edges _ hm := by simp at hm
  asked _ hm := by simp at hm
  opening _ hm := by simp at hm

theorem Covers.of_expanded_eq (h : Covers index path p ss q entered)
    (he : p.expanded = r.expanded) : Covers index path r ss q entered where
  expanded := he ▸ h.expanded
  edges hn hm hi hf :=
    (h.edges hn hm hi hf).weaken (fun _ ha => Or.inl (he ▸ ha)) (fun _ ha => Or.inl ha)
      (List.Subset.refl _)
  asked := h.asked
  opening := h.opening

theorem Covers.weaken (h : Covers index path p ss q entered)
    (hp : ∀ a ∈ path, a ∈ path' ∨ a ∈ entered) (hs : ss ⊆ ts) :
    Covers index path' p ts q entered where
  expanded := h.expanded
  edges hn hm he hf :=
    (h.edges hn hm he hf).weaken (fun _ ha => Or.inl ha) hp (List.Subset.refl _)
  asked := h.asked
  opening hn hm := List.Subset.trans (h.opening hn hm) hs

theorem Covers.append (h : Covers index path p ss q entered)
    (h' : Covers index path q ts r entered') (hx : Extends q r) :
    Covers index path p (ss ++ ts) r (entered ++ entered') := by
  have hl : entered ⊆ entered ++ entered' := List.subset_append_left _ _
  have hr : entered' ⊆ entered ++ entered' := List.subset_append_right _ _
  constructor
  · intro id hi
    rcases h'.expanded id hi with hi | hi
    · exact (h.expanded id hi).imp_right (fun hi => hl hi)
    · exact Or.inr (hr hi)
  · intro n e hn hm he hf
    rcases List.mem_append.mp hm with hm | hm
    · exact (h.edges hn hm he hf).weaken (fun _ ha => Or.inl ha) (fun _ ha => Or.inl ha) hl
    · exact (h'.edges hn hm he hf).weaken
        (fun a ha => (h.expanded a ha).imp_right (fun ha => hl ha)) (fun _ ha => Or.inl ha) hr
  · intro n a hn hm ha
    rcases List.mem_append.mp hm with hm | hm
    · exact hx.hubs (h.asked hn hm ha)
    · exact h'.asked hn hm ha
  · intro n hn hm
    rcases List.mem_append.mp hm with hm | hm
    · exact List.Subset.trans (h.opening hn hm) (List.subset_append_left _ _)
    · exact List.Subset.trans (h'.opening hn hm) (List.subset_append_right _ _)

theorem Met.left {id : String} (h : Met index path p entered id) (entered' : List String) :
    Met index path p (entered ++ entered') id :=
  h.weaken (fun _ ha => Or.inl ha) (fun _ ha => Or.inl ha) (List.subset_append_left _ _)

/-- What is met later is met from the start on. -/
theorem Covers.met {id : String} (h : Covers index path p ss q entered)
    (hm : Met index path q entered' id) : Met index path p (entered ++ entered') id :=
  hm.weaken (fun a ha => (h.expanded a ha).imp_right (List.mem_append_left _))
    (fun _ ha => Or.inl ha) (List.subset_append_right _ _)

def Task.MetBy (index : Index) (path : List String) (p : Progress) (entered : List String) :
    Task → Prop
  | .visit id => Met index path p entered id
  | .follow es => ∀ e ∈ es, Met index path p entered e.target
  | .arms as => ∀ a ∈ as, ∀ e ∈ a.edges, Met index path p entered e.target
  | .expand node => node.id ∈ entered

theorem mem_hubsSeen_ask {a : String × Hub} : a.1 ∈ (ask (some a) p).hubsSeen := by
  change a.1 ∈ (p.addHub a.1 a.2).hubsSeen
  by_cases hi : a.1 ∈ p.hubsSeen
  · rwa [Progress.addHub_of_mem a.2 hi]
  · rw [Progress.addHub_of_not_mem a.2 hi]
    exact List.mem_cons_self

@[simp] theorem expanded_addHub (id : String) (h : Hub) :
    (p.addHub id h).expanded = p.expanded := by
  unfold Progress.addHub
  split <;> rfl

@[simp] theorem expanded_ask (hub : Option (String × Hub)) :
    (ask hub p).expanded = p.expanded := by
  cases hub with
  | none => rfl
  | some a => exact expanded_addHub a.1 a.2

@[simp] theorem expanded_addJoin (node : Node) :
    (p.addJoin node).2.expanded = p.expanded := by
  unfold Progress.addJoin
  split <;> rfl

theorem mem_expanded_enter {node : Node} {id : String} (h : id ∈ (enter node p).expanded) :
    id = node.id ∨ id ∈ p.expanded := by
  unfold enter at h
  split at h
  · exact List.mem_cons.mp h
  · exact Or.inr h

theorem Covers.expand {node : Node} (hn : index.node? node.id = some node)
    (h : Covers index path (ask (plan index node).hub p) ss q entered)
    (hm : (Task.arms (plan index node).arms).MetBy index path (ask (plan index node).hub p) entered)
    (hx : Extends (ask (plan index node).hub p) q) :
    Covers index path p ((plan index node).opening ++ (ss ++ (plan index node).closing)) q
      (node.id :: entered) := by
  have hs : entered ⊆ node.id :: entered := List.subset_cons_self _ _
  have hself : ∀ {n}, index.node? n.id = some n → n.id = node.id → n = node := by
    intro n hn' he
    rw [he, hn] at hn'
    exact (Option.some.inj hn').symm
  have hw : ∀ id, Met index path (ask (plan index node).hub p) entered id →
      Met index path p (node.id :: entered) id := fun id hm =>
    hm.weaken (fun a ha => Or.inl (by simpa using ha)) (fun a ha => Or.inl ha) hs
  constructor
  · intro id hi
    have := h.expanded id hi
    rw [expanded_ask] at this
    exact this.imp_right (fun hi => hs hi)
  · intro n e hn' hm' he hf
    rcases List.mem_cons.mp hm' with hid | hm'
    · obtain rfl := hself hn' hid
      obtain ⟨a, ha, he⟩ := mem_plan_edges.mpr ⟨he, hf⟩
      exact hw _ (hm a ha e he)
    · exact hw _ (h.edges hn' hm' he hf)
  · intro n a hn' hm' ha
    rcases List.mem_cons.mp hm' with hid | hm'
    · obtain rfl := hself hn' hid
      rw [ha] at hx
      exact hx.hubs mem_hubsSeen_ask
    · exact h.asked hn' hm' ha
  · intro n hn' hm'
    rcases List.mem_cons.mp hm' with hid | hm'
    · obtain rfl := hself hn' hid
      exact List.subset_append_left _ _
    · exact List.Subset.trans (h.opening hn' hm')
        (List.Subset.trans (List.subset_append_left _ _) (List.subset_append_right _ _))

/-- A node that was entered counts as such, not as one on the path or written before. -/
theorem Covers.enter {node : Node}
    (h : Covers index (node.id :: path) (enter node p) ss q entered) (hm : node.id ∈ entered) :
    Covers index path p ss q entered where
  expanded id hi := by
    rcases h.expanded id hi with hi | hi
    · rcases mem_expanded_enter hi with rfl | hi
      · exact Or.inr hm
      · exact Or.inl hi
    · exact Or.inr hi
  edges hn hm' he hf := by
    refine (h.edges hn hm' he hf).weaken (fun a ha => ?_) (fun a ha => ?_) (List.Subset.refl _)
    · rcases mem_expanded_enter ha with rfl | ha
      · exact Or.inr hm
      · exact Or.inl ha
    · rcases List.mem_cons.mp ha with rfl | ha
      · exact Or.inr hm
      · exact Or.inl ha
  asked := h.asked
  opening := h.opening

theorem Run.covers (hc : index.Coherent) {task : Task} (h : Run index path task p ss q)
    (hk : task.Known index) :
    ∃ entered, Covers index path p ss q entered ∧ task.MetBy index path p entered := by
  induction h with
  | missing hn => exact ⟨[], .nil _ _ rfl _, Or.inl hn⟩
  | onPath _ hi => exact ⟨[], .nil _ _ rfl _, Or.inr (Or.inr (Or.inl hi))⟩
  | shared _ _ _ he =>
    exact ⟨[], .nil _ _ (expanded_addJoin _) _, Or.inr (Or.inr (Or.inr he))⟩
  | @entered path id node p ss q hn _ _ _ ih =>
    obtain rfl := hc.node_id hn
    obtain ⟨entered, h, hm⟩ := ih hn
    exact ⟨entered, h.enter hm, Or.inr (Or.inl hm)⟩
  | noEdge => exact ⟨[], .nil _ _ rfl _, by simp [Task.MetBy]⟩
  | @edge path e es p ss q ts r _ h' ih ih' =>
    obtain ⟨entered, h, hm⟩ := ih trivial
    obtain ⟨entered', hr, hm'⟩ := ih' trivial
    refine ⟨_, h.append hr (h'.extends hc trivial), List.forall_mem_cons.mpr ⟨?_, ?_⟩⟩
    · exact Met.left hm _
    · exact fun e he => h.met (hm' e he)
  | noArm => exact ⟨[], .nil _ _ rfl _, by simp [Task.MetBy]⟩
  | @arm path a as p ss q ts r _ h' ih ih' =>
    obtain ⟨entered, h, hm⟩ := ih trivial
    obtain ⟨entered', hr, hm'⟩ := ih' trivial
    have ha := h.append hr (h'.extends hc trivial)
    refine ⟨_, ha.weaken (fun _ ha => Or.inl ha) (List.subset_append_right _ _),
      List.forall_mem_cons.mpr ⟨?_, ?_⟩⟩
    · exact fun e he => (hm e he).left _
    · exact fun a ha e he => h.met (hm' a ha e he)
  | expand h' ih =>
    obtain ⟨entered, h, hm⟩ := ih trivial
    exact ⟨_, h.expand hk hm (h'.extends hc trivial), List.mem_cons_self⟩

/-- The edges of the hubs among the sections have been met. -/
def HubsMet (index : Index) (path : List String) (p : Progress) (entered : List String)
    (ss : List Section) : Prop :=
  ∀ s ∈ ss, s.kind = .hub → ∀ e ∈ index.outgoing s.node, Met index path p entered e.target

theorem SectionRun.covers (hc : index.Coherent) {pending : Pending} {s : Section}
    (h : SectionRun index pending p s q) (ha : Asked index p pending) (hx : p.hubsSeen ⊆ path) :
    ∃ entered, Covers index path p s.steps q entered ∧ HubsMet index path p entered [s] := by
  cases h with
  | @hub id g p ss q h =>
    obtain ⟨entered, hcov, hm⟩ := h.covers hc trivial
    have hp : ∀ a ∈ [id], a ∈ path ∨ a ∈ entered := by
      intro a hi
      exact Or.inl (hx (List.mem_singleton.mp hi ▸ ha.1))
    refine ⟨entered, hcov.weaken hp (List.Subset.refl _), ?_⟩
    intro t ht _ e he
    obtain rfl := List.mem_singleton.mp ht
    exact (hm e he).weaken (fun _ ha => Or.inl ha) hp (List.Subset.refl _)
  | @join node label p ss q h =>
    obtain ⟨entered, hcov, hm⟩ := h.covers hc ha.2.1
    have hp : ∀ a ∈ [node.id], a ∈ path ∨ a ∈ entered := by
      intro a hi
      exact Or.inr (List.mem_singleton.mp hi ▸ hm)
    refine ⟨entered, hcov.weaken hp (List.Subset.refl _), ?_⟩
    intro t ht hk
    obtain rfl := List.mem_singleton.mp ht
    exact absurd hk (by simp)

theorem Drain.covers (hc : index.Coherent) {ss : List Section} (h : Drain index p ss r)
    (hs : Sound index p) (hx : r.hubsSeen ⊆ path) :
    ∃ entered, Covers index path p (ss.flatMap Section.steps) r entered ∧
      HubsMet index path p entered ss := by
  induction h with
  | empty => exact ⟨[], .nil _ _ rfl _, by simp [HubsMet]⟩
  | @next p pending queue s q ss r hq h hd ih =>
    have ha := hs.asked_head hq
    have hs' := h.sound hc ha (hs.pop hq)
    have hxr := hd.extends hc hs'
    have hhubs := List.Subset.trans ((h.extends hc ha).trans hxr).hubs hx
    obtain ⟨entered, hcov, hm⟩ := h.covers hc ha hhubs
    obtain ⟨entered', hcov', hm'⟩ := ih hs' hx
    have hcov := hcov.of_expanded_eq (r := p) rfl
    refine ⟨entered ++ entered', ?_, ?_⟩
    · rw [List.flatMap_cons]
      exact hcov.append hcov' hxr
    intro t ht hk e he
    rcases List.mem_cons.mp ht with rfl | ht
    · exact Met.left (hm t List.mem_cons_self hk e he) _
    · exact hcov.met (hm' t ht hk e he)

/-- A set of entered nodes that a script covers: the entry node and the edges of its hubs have been
met from the start on, and where a section was written every hub that was asked for is on the
path. -/
structure Covered (index : Index) (entry : Node) (script : LinearScript) (q : Progress)
    (entered : List String) : Prop where
  covers : Covers index q.hubsSeen (start index) script.steps q entered
  entry : Met index q.hubsSeen (start index) entered entry.id
  hubs : HubsMet index q.hubsSeen (start index) entered script.sections

theorem ScriptRun.covered (hc : index.Coherent) {entry : Node} {script : LinearScript}
    (h : ScriptRun index entry script p q) : ∃ entered, Covered index entry script q entered := by
  obtain ⟨entered, hcov, hm⟩ := h.main.covers hc trivial
  obtain ⟨entered', hcov', hm'⟩ :=
    h.drain.covers hc (h.sound_main hc) (List.Subset.refl _)
  have hp : ∀ a ∈ ([] : List String), a ∈ q.hubsSeen ∨ a ∈ entered := by simp
  have hcov := hcov.weaken hp (List.Subset.refl _)
  refine ⟨entered ++ entered', hcov.append hcov' (h.extends hc), ?_, ?_⟩
  · exact Met.weaken hm (fun _ ha => Or.inl ha) (by simp) (List.subset_append_left _ _)
  · exact fun s hs hk e he => hcov.met (hm' s hs hk e he)

end StoryFlow.Linearize
