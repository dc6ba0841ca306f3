import StoryFlow.Proofs.Graph.Run

/-! # Progress of the traversal

Progress only grows. Hubs and join sections are asked for once each, their labels differ, and
whatever was asked for stands in the queue of its time.
-/

namespace StoryFlow

namespace Progress

variable {p : Progress} {node : Node} {label : String}

theorem addHub_of_mem {id : String} (h : Hub) (hi : id ∈ p.hubsSeen) : p.addHub id h = p := by
  simp [addHub, hi]

theorem addHub_of_not_mem {id : String} (h : Hub) (hi : id ∉ p.hubsSeen) :
    p.addHub id h =
      { p with hubsSeen := id :: p.hubsSeen, queue := p.queue ++ [.hub id h] } := by
  simp [addHub, hi]

theorem addJoin_of_lookup (h : p.joinLabels.lookup node.id = some label) :
    p.addJoin node = (label, p) := by
  simp [addJoin, h]

theorem addJoin_of_lookup_none (h : p.joinLabels.lookup node.id = none) :
    p.addJoin node = (p.newLabel node.id, { p with
      usedLabels := p.newLabel node.id :: p.usedLabels
      joinLabels := (node.id, p.newLabel node.id) :: p.joinLabels
      queue := p.queue ++ [.join node (p.newLabel node.id)] }) := by
  simp [addJoin, h]

theorem addJoin_mem (p : Progress) (node : Node) :
    (node.id, (p.addJoin node).1) ∈ (p.addJoin node).2.joinLabels := by
  cases h : p.joinLabels.lookup node.id with
  | some label =>
    rw [addJoin_of_lookup h]
    exact Assoc.mem_of_lookup h
  | none =>
    rw [addJoin_of_lookup_none h]
    exact List.mem_cons_self

end Progress

namespace Linearize

/-- Later progress keeps what was written, asked for and labelled. -/
structure Extends (p q : Progress) : Prop where
  hubs : p.hubsSeen ⊆ q.hubsSeen
  expanded : p.expanded ⊆ q.expanded
  joins : p.joinLabels ⊆ q.joinLabels

theorem Extends.refl (p : Progress) : Extends p p :=
  ⟨List.Subset.refl _, List.Subset.refl _, List.Subset.refl _⟩

theorem Extends.trans {p q r : Progress} (h : Extends p q) (h' : Extends q r) : Extends p r :=
  ⟨List.Subset.trans h.hubs h'.hubs, List.Subset.trans h.expanded h'.expanded,
    List.Subset.trans h.joins h'.joins⟩

theorem extends_addHub (p : Progress) (id : String) (h : Hub) : Extends p (p.addHub id h) := by
  by_cases hi : id ∈ p.hubsSeen
  · rw [Progress.addHub_of_mem h hi]
    exact .refl p
  · rw [Progress.addHub_of_not_mem h hi]
    exact ⟨List.subset_cons_self _ _, List.Subset.refl _, List.Subset.refl _⟩

theorem extends_addJoin (p : Progress) (node : Node) : Extends p (p.addJoin node).2 := by
  cases h : p.joinLabels.lookup node.id with
  | some label =>
    rw [Progress.addJoin_of_lookup h]
    exact .refl p
  | none =>
    rw [Progress.addJoin_of_lookup_none h]
    exact ⟨List.Subset.refl _, List.Subset.refl _, List.subset_cons_self _ _⟩

theorem extends_enter (p : Progress) (node : Node) : Extends p (enter node p) := by
  unfold enter
  split
  · exact ⟨List.Subset.refl _, List.subset_cons_self _ _, List.Subset.refl _⟩
  · exact .refl p

/-- A section was asked for, by now. -/
def Asked (index : Index) (p : Progress) : Pending → Prop
  | .hub id h => id ∈ p.hubsSeen ∧ index.hub? id = some h
  | .join node label =>
    (node.id, label) ∈ p.joinLabels ∧ index.node? node.id = some node ∧ node.hasBody

theorem Asked.extends {index : Index} {p q : Progress} {pending : Pending}
    (h : Asked index p pending) (he : Extends p q) : Asked index q pending := by
  cases pending with
  | hub id g => exact ⟨he.hubs h.1, h.2⟩
  | join node label => exact ⟨he.joins h.1, h.2⟩

/-- What the traversal has written and asked for is known, unique and on record, and a join section
is asked for only at a node that was written before. -/
structure Sound (index : Index) (p : Progress) : Prop where
  hubs_nodup : p.hubsSeen.Nodup
  hubs_known : ∀ id ∈ p.hubsSeen, ∃ h, index.hub? id = some h
  expanded_nodup : p.expanded.Nodup
  expanded_known : p.expanded ⊆ index.bodies
  joins_nodup : (p.joinLabels.map Prod.fst).Nodup
  joins_expanded : p.joinLabels.map Prod.fst ⊆ p.expanded
  labels_nodup : (p.joinLabels.map Prod.snd).Nodup
  labels_fresh : ∀ label ∈ p.joinLabels.map Prod.snd, label ∉ index.hubLabels
  labels_named : ∀ j ∈ p.joinLabels, ∃ taken,
    j.2 = freshName taken (Text.identifier ("node_" ++ j.1))
  used : p.usedLabels = p.joinLabels.map Prod.snd ++ index.hubLabels
  queue : ∀ pending ∈ p.queue, Asked index p pending

variable {index : Index} {path : List String} {task : Task} {p q : Progress} {ss : List Step}

theorem start_sound (index : Index) : Sound index (start index) := by
  constructor <;> simp [start]

theorem Sound.addHub (hs : Sound index p) {id : String} {h : Hub}
    (hh : index.hub? id = some h) : Sound index (p.addHub id h) := by
  by_cases hi : id ∈ p.hubsSeen
  · rwa [Progress.addHub_of_mem h hi]
  · rw [Progress.addHub_of_not_mem h hi]
    exact { hs with
      hubs_nodup := List.nodup_cons.mpr ⟨hi, hs.hubs_nodup⟩
      hubs_known := List.forall_mem_cons.mpr ⟨⟨h, hh⟩, hs.hubs_known⟩
      queue := fun pending hm => by
        rcases List.mem_append.mp hm with hm | hm
        · refine (hs.queue pending hm).extends ?_
          exact ⟨List.subset_cons_self _ _, List.Subset.refl _, List.Subset.refl _⟩
        · obtain rfl := List.mem_singleton.mp hm
          exact ⟨List.mem_cons_self, hh⟩ }

theorem Sound.newLabel_fresh (hs : Sound index p) (id : String) :
    p.newLabel id ∉ p.joinLabels.map Prod.snd ∧ p.newLabel id ∉ index.hubLabels := by
  have hf := freshName_not_mem p.usedLabels (Text.identifier ("node_" ++ id))
  rw [hs.used] at hf
  exact ⟨fun hm => hf (List.mem_append_left _ (hs.used ▸ hm)),
    fun hm => hf (List.mem_append_right _ (hs.used ▸ hm))⟩

theorem Sound.addJoin (hs : Sound index p) {node : Node}
    (hn : index.node? node.id = some node) (hb : node.hasBody) (he : node.id ∈ p.expanded) :
    Sound index (p.addJoin node).2 := by
  cases hl : p.joinLabels.lookup node.id with
  | some label => rwa [Progress.addJoin_of_lookup hl]
  | none =>
    rw [Progress.addJoin_of_lookup_none hl]
    have hi : node.id ∉ p.joinLabels.map Prod.fst := by
      rw [← Assoc.lookup_isSome_iff, hl]
      simp
    obtain ⟨hu, hf⟩ := hs.newLabel_fresh node.id
    exact { hs with
      joins_nodup := List.nodup_cons.mpr ⟨hi, hs.joins_nodup⟩
      joins_expanded := List.cons_subset.mpr ⟨he, hs.joins_expanded⟩
      labels_nodup := List.nodup_cons.mpr ⟨hu, hs.labels_nodup⟩
      labels_fresh := List.forall_mem_cons.mpr ⟨hf, hs.labels_fresh⟩
      labels_named := List.forall_mem_cons.mpr ⟨⟨p.usedLabels, rfl⟩, hs.labels_named⟩
      used := by simp [hs.used]
      queue := fun pending hm => by
        rcases List.mem_append.mp hm with hm | hm
        · refine (hs.queue pending hm).extends ?_
          exact ⟨List.Subset.refl _, List.Subset.refl _, List.subset_cons_self _ _⟩
        · obtain rfl := List.mem_singleton.mp hm
          exact ⟨List.mem_cons_self, hn, hb⟩ }

theorem Sound.enter (hs : Sound index p) {node : Node} (hn : index.node? node.id = some node)
    (hi : node.hasBody → node.id ∉ p.expanded) : Sound index (enter node p) := by
  unfold Linearize.enter
  split
  · rename_i hb
    exact { hs with
      expanded_nodup := List.nodup_cons.mpr ⟨hi hb, hs.expanded_nodup⟩
      expanded_known := List.cons_subset.mpr ⟨Index.mem_bodies hn hb, hs.expanded_known⟩
      joins_expanded := List.subset_cons_of_subset _ hs.joins_expanded
      queue := hs.queue }
  · exact hs

theorem Run.extends (hc : index.Coherent) (h : Run index path task p ss q)
    (hk : task.Known index) : Extends p q :=
  h.preserves hc .refl .trans (fun p _ => extends_addHub p _ _)
    (fun p _ _ _ => extends_addJoin p _) (fun p _ _ => extends_enter p _) hk

theorem Run.sound (hc : index.Coherent) (h : Run index path task p ss q)
    (hk : task.Known index) (hs : Sound index p) : Sound index q :=
  h.preserves hc (R := fun p q => Sound index p → Sound index q)
    (fun _ hs => hs) (fun hpq hqr hs => hqr (hpq hs))
    (fun _ hh hs => hs.addHub hh) (fun _ hn hb he hs => hs.addJoin hn hb he)
    (fun _ hn hi hs => hs.enter hn hi) hk hs

def asked (p : Progress) : Nat :=
  p.hubsSeen.length + p.joinLabels.length

/-- The queue grows by what is asked for. -/
theorem Run.queue_length (hc : index.Coherent) (h : Run index path task p ss q)
    (hk : task.Known index) : q.queue.length + asked p = p.queue.length + asked q := by
  refine h.preserves hc (R := fun p q => q.queue.length + asked p = p.queue.length + asked q)
    (fun _ => rfl) (fun hpq hqr => by omega) ?_ ?_ ?_ hk
  · intro id h p _
    by_cases hi : id ∈ p.hubsSeen
    · rw [Progress.addHub_of_mem h hi]
    · rw [Progress.addHub_of_not_mem h hi]
      simp [asked]
      omega
  · intro node p _ _ _
    cases hl : p.joinLabels.lookup node.id with
    | some label => rw [Progress.addJoin_of_lookup hl]
    | none =>
      rw [Progress.addJoin_of_lookup_none hl]
      simp [asked]
      omega
  · intro node p _ _
    unfold Linearize.enter
    split <;> rfl

/-- There are at most as many sections as hubs and nodes with a body. -/
theorem Sound.asked_le (hs : Sound index p) :
    asked p ≤ index.hubs.length + index.bodies.length := by
  have hh : p.hubsSeen ⊆ index.hubs.map Prod.fst := by
    intro id hid
    obtain ⟨h, hh⟩ := hs.hubs_known id hid
    exact Assoc.lookup_isSome_iff.mp (Option.isSome_of_eq_some hh)
  have hn := List.Subset.trans hs.joins_expanded hs.expanded_known
  have := hs.hubs_nodup.length_le_of_subset hh
  have := hs.joins_nodup.length_le_of_subset hn
  simp only [List.length_map] at *
  unfold asked
  omega

end Linearize

end StoryFlow
