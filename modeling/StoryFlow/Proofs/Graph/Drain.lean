import StoryFlow.Proofs.Graph.Progress

/-! # The sections of a script

Sections are written one after the other while new ones are asked for. Each is written once it is
asked for, and since no more can be asked for than there are hubs and nodes with a body, all of them
are.
-/

namespace StoryFlow.Linearize

/-- A section is written from a progress and leaves another one. -/
inductive SectionRun (index : Index) : Pending → Progress → Section → Progress → Prop where

  | hub {id h p ss q} : Run index [id] (.follow (index.outgoing id)) p ss q →
      SectionRun index (.hub id h) p ⟨h.labelAt id, .hub, id, ss⟩ q

  | join {node label p ss q} : Run index [node.id] (.expand node) p ss q →
      SectionRun index (.join node label) p ⟨label, .join, node.id, ss⟩ q

/-- The sections of a queue, which grows meanwhile, are written until none is left. -/
inductive Drain (index : Index) : Progress → List Section → Progress → Prop where

  | empty {p} : p.queue = [] → Drain index p [] p

  | next {p pending queue s q ss r} : p.queue = pending :: queue →
      SectionRun index pending { p with queue := queue } s q → Drain index q ss r →
      Drain index p (s :: ss) r

variable {index : Index} {p q r : Progress} {pending : Pending} {s : Section} {ss : List Section}

section Progress

theorem Sound.pop {queue : List Pending} (hs : Sound index p)
    (hq : p.queue = pending :: queue) : Sound index { p with queue := queue } :=
  { hs with queue := fun a ha => hs.queue a (hq ▸ List.mem_cons_of_mem _ ha) }

theorem SectionRun.extends (hc : index.Coherent) (h : SectionRun index pending p s q)
    (ha : Asked index p pending) : Extends p q := by
  cases h with
  | hub h => exact h.extends hc trivial
  | join h => exact h.extends hc ha.2.1

theorem SectionRun.sound (hc : index.Coherent) (h : SectionRun index pending p s q)
    (ha : Asked index p pending) (hs : Sound index p) : Sound index q := by
  cases h with
  | hub h => exact h.sound hc trivial hs
  | join h => exact h.sound hc ha.2.1 hs

theorem SectionRun.queue_length (hc : index.Coherent) (h : SectionRun index pending p s q)
    (ha : Asked index p pending) : q.queue.length + asked p = p.queue.length + asked q := by
  cases h with
  | hub h => exact h.queue_length hc trivial
  | join h => exact h.queue_length hc ha.2.1

theorem Sound.asked_head {queue : List Pending} (hs : Sound index p)
    (hq : p.queue = pending :: queue) : Asked index { p with queue := queue } pending := by
  have ha := hs.queue pending (hq ▸ List.mem_cons_self)
  cases pending <;> exact ha

theorem Drain.extends (hc : index.Coherent) (h : Drain index p ss r) (hs : Sound index p) :
    Extends p r := by
  induction h with
  | empty => exact .refl _
  | next hq h _ ih =>
    have ha := hs.asked_head hq
    exact Extends.trans ⟨(h.extends hc ha).hubs, (h.extends hc ha).expanded,
      (h.extends hc ha).joins⟩ (ih (h.sound hc ha (hs.pop hq)))

theorem Drain.sound (hc : index.Coherent) (h : Drain index p ss r) (hs : Sound index p) :
    Sound index r := by
  induction h with
  | empty => exact hs
  | next hq h _ ih => exact ih (h.sound hc (hs.asked_head hq) (hs.pop hq))

theorem Drain.queue_nil (h : Drain index p ss r) : r.queue = [] := by
  induction h with
  | empty hq => exact hq
  | next _ _ _ ih => exact ih

end Progress

section Adequacy

theorem sectionRun_writeSection (hc : index.Coherent) {depth : Nat}
    (hd : index.nodes.length < depth) (ha : Asked index p pending) :
    SectionRun index pending p (writeSection index depth pending p).1
      (writeSection index depth pending p).2 := by
  cases pending with
  | hub id h =>
    obtain ⟨node, hn⟩ := hc.node_of_hub ha.2
    exact .hub (run_follow (run_visit hc (.singleton hn) (by omega)) _ _)
  | join node label =>
    exact .join (run_expand (run_visit hc (.singleton ha.2.1) (by omega)) _ _)

/-- The rounds cover the sections that wait and those that can still be asked for. -/
theorem drain_drain (hc : index.Coherent) {depth : Nat} (hd : index.nodes.length < depth)
    (hs : Sound index p) (rounds : Nat)
    (hr : index.hubs.length + index.bodies.length + p.queue.length ≤ rounds + asked p) :
    ∃ r, Drain index p (drain index depth rounds p) r := by
  induction rounds generalizing p with
  | zero =>
    have hl := hs.asked_le
    exact ⟨p, .empty (List.length_eq_zero_iff.mp (by omega))⟩
  | succ rounds ih =>
    rw [drain]
    split
    · rename_i hq
      exact ⟨p, .empty hq⟩
    · rename_i pending queue hq
      have ha := hs.asked_head hq
      have hw := sectionRun_writeSection hc hd ha
      have hl := hw.queue_length hc ha
      have hr' : index.hubs.length + index.bodies.length + (queue.length + 1) ≤
          rounds + 1 + asked { p with queue := queue } := by
        rw [hq, List.length_cons] at hr
        exact hr
      simp only at hl
      obtain ⟨r, h⟩ := ih (hw.sound hc ha (hs.pop hq)) (by omega)
      exact ⟨r, .next hq hw h⟩

/-- A script is written from an entry node on. -/
structure ScriptRun (index : Index) (entry : Node) (script : LinearScript) (p q : Progress) :
    Prop where
  main : Run index [] (.visit entry.id) (start index) script.main p
  drain : Drain index p script.sections q

theorem scriptRun_bounded (hc : index.Coherent) {entry : Node} (he : index.entry = some entry)
    {depth rounds : Nat} (hd : index.nodes.length < depth)
    (hr : index.hubs.length + index.bodies.length ≤ rounds) :
    ∃ p q, ScriptRun index entry (bounded index depth rounds) p q := by
  have hm := run_visit hc .nil (by simpa using hd) entry.id (start index)
  have hs := hm.sound hc trivial (start_sound index)
  have hl := hm.queue_length hc trivial
  have hz : asked (start index) = 0 ∧ (start index).queue.length = 0 := ⟨rfl, rfl⟩
  obtain ⟨q, hq⟩ := drain_drain hc hd hs rounds (by omega)
  rw [bounded, he]
  exact ⟨_, q, hm, hq⟩

/-- The script of a graph with an entry node is written to its end. -/
theorem scriptRun_linearize (hc : index.Coherent) {entry : Node}
    (he : index.entry = some entry) : ∃ p q, ScriptRun index entry index.linearize p q :=
  scriptRun_bounded hc he (Nat.lt_succ_self _)
    (Nat.add_le_add_left index.bodies_length_le _)

end Adequacy

section Origin

/-- A section was asked for and written in the course of a script that ends in a progress. -/
def Written (index : Index) (last : Progress) (s : Section) : Prop :=
  ∃ pending p q, SectionRun index pending p s q ∧ Asked index p pending ∧ Sound index p ∧
    Extends p last ∧ Extends q last

theorem Drain.written (hc : index.Coherent) (h : Drain index p ss r) (hs : Sound index p) :
    ∀ s ∈ ss, Written index r s := by
  induction h with
  | empty => simp
  | @next p pending queue s q ss r hq h hd ih =>
    have ha := hs.asked_head hq
    have hs' := h.sound hc ha (hs.pop hq)
    have he := hd.extends hc hs'
    rintro t ht
    rcases List.mem_cons.mp ht with rfl | ht
    · exact ⟨pending, _, q, h, ha, hs.pop hq, (h.extends hc ha).trans he, he⟩
    · exact ih hs' t ht

end Origin

section Complete

/-- What was asked for waits in the queue or stands among the sections. -/
structure Accounted (ss : List Section) (p : Progress) : Prop where
  hubs : ∀ id ∈ p.hubsSeen, (∃ h, .hub id h ∈ p.queue) ∨ ∃ s ∈ ss, s.kind = .hub ∧ s.node = id
  joins : ∀ id label, (id, label) ∈ p.joinLabels →
    (∃ node, .join node label ∈ p.queue ∧ node.id = id) ∨
      ∃ s ∈ ss, s.kind = .join ∧ s.label = label ∧ s.node = id

theorem start_accounted (index : Index) : Accounted [] (start index) :=
  ⟨by simp [start], by simp [start]⟩

theorem Accounted.addHub (ha : Accounted ss p) (id : String) (h : Hub) :
    Accounted ss (p.addHub id h) := by
  by_cases hi : id ∈ p.hubsSeen
  · rwa [Progress.addHub_of_mem h hi]
  · rw [Progress.addHub_of_not_mem h hi]
    constructor
    · intro a hm
      rcases List.mem_cons.mp hm with rfl | hm
      · exact Or.inl ⟨h, by simp⟩
      · refine (ha.hubs a hm).imp_left ?_
        rintro ⟨g, hg⟩
        exact ⟨g, List.mem_append_left _ hg⟩
    · intro a label hm
      refine (ha.joins a label hm).imp_left ?_
      rintro ⟨node, hn, he⟩
      exact ⟨node, List.mem_append_left _ hn, he⟩

theorem Accounted.addJoin (ha : Accounted ss p) (node : Node) :
    Accounted ss (p.addJoin node).2 := by
  cases hl : p.joinLabels.lookup node.id with
  | some label => rwa [Progress.addJoin_of_lookup hl]
  | none =>
    rw [Progress.addJoin_of_lookup_none hl]
    constructor
    · intro a hm
      refine (ha.hubs a hm).imp_left ?_
      rintro ⟨g, hg⟩
      exact ⟨g, List.mem_append_left _ hg⟩
    · intro a label hm
      rcases List.mem_cons.mp hm with he | hm
      · obtain ⟨rfl, rfl⟩ := Prod.mk.inj he
        exact Or.inl ⟨node, by simp, rfl⟩
      · refine (ha.joins a label hm).imp_left ?_
        rintro ⟨n, hn, he⟩
        exact ⟨n, List.mem_append_left _ hn, he⟩

theorem Accounted.enter (ha : Accounted ss p) (node : Node) : Accounted ss (enter node p) := by
  unfold Linearize.enter
  split
  · exact ⟨ha.hubs, ha.joins⟩
  · exact ha

theorem Run.accounted {path : List String} {task : Task} {steps : List Step}
    (hc : index.Coherent) (h : Run index path task p steps q) (hk : task.Known index)
    (ha : Accounted ss p) : Accounted ss q :=
  h.preserves hc (R := fun p q => Accounted ss p → Accounted ss q)
    (fun _ ha => ha) (fun hpq hqr ha => hqr (hpq ha)) (fun _ _ ha => ha.addHub _ _)
    (fun _ _ _ _ ha => ha.addJoin _) (fun _ _ _ ha => ha.enter _) hk ha

theorem Accounted.pop {queue : List Pending} (ha : Accounted ss p)
    (hq : p.queue = pending :: queue) (h : SectionRun index pending { p with queue := queue } s q) :
    Accounted (ss ++ [s]) { p with queue := queue } := by
  constructor
  · intro id hm
    rcases ha.hubs id hm with ⟨g, hg⟩ | ⟨t, ht, hts⟩
    · rw [hq] at hg
      rcases List.mem_cons.mp hg with rfl | hg
      · cases h
        exact Or.inr ⟨_, List.mem_append_right _ List.mem_cons_self, rfl, rfl⟩
      · exact Or.inl ⟨g, hg⟩
    · exact Or.inr ⟨t, List.mem_append_left _ ht, hts⟩
  · intro id label hm
    rcases ha.joins id label hm with ⟨node, hn, he⟩ | ⟨t, ht, hts⟩
    · rw [hq] at hn
      rcases List.mem_cons.mp hn with rfl | hn
      · cases h
        exact Or.inr ⟨_, List.mem_append_right _ List.mem_cons_self, rfl, rfl, he⟩
      · exact Or.inl ⟨node, hn, he⟩
    · exact Or.inr ⟨t, List.mem_append_left _ ht, hts⟩

theorem SectionRun.accounted (hc : index.Coherent) (h : SectionRun index pending p s q)
    (hp : Asked index p pending) (ha : Accounted ss p) : Accounted ss q := by
  cases h with
  | hub h => exact h.accounted hc trivial ha
  | join h => exact h.accounted hc hp.2.1 ha

theorem Drain.accounted (hc : index.Coherent) (h : Drain index p ss r) (hs : Sound index p)
    {before : List Section} (ha : Accounted before p) : Accounted (before ++ ss) r := by
  induction h generalizing before with
  | empty => simpa using ha
  | next hq h _ ih =>
    have hp := hs.asked_head hq
    have := ih (h.sound hc hp (hs.pop hq)) (h.accounted hc hp (ha.pop hq h))
    simpa using this

end Complete

section Script

variable {entry : Node} {script : LinearScript}

theorem ScriptRun.sound_main (hc : index.Coherent) (h : ScriptRun index entry script p q) :
    Sound index p :=
  h.main.sound hc trivial (start_sound index)

theorem ScriptRun.sound (hc : index.Coherent) (h : ScriptRun index entry script p q) :
    Sound index q :=
  h.drain.sound hc (h.sound_main hc)

theorem ScriptRun.extends (hc : index.Coherent) (h : ScriptRun index entry script p q) :
    Extends p q :=
  h.drain.extends hc (h.sound_main hc)

theorem ScriptRun.written (hc : index.Coherent) (h : ScriptRun index entry script p q) :
    ∀ s ∈ script.sections, Written index q s :=
  h.drain.written hc (h.sound_main hc)

theorem ScriptRun.accounted (hc : index.Coherent) (h : ScriptRun index entry script p q) :
    Accounted script.sections q := by
  have ha := h.main.accounted hc trivial (start_accounted index)
  simpa using h.drain.accounted hc (h.sound_main hc) ha

theorem ScriptRun.hub_section (hc : index.Coherent) (h : ScriptRun index entry script p q)
    {id : String} (hi : id ∈ q.hubsSeen) : ∃ s ∈ script.sections, s.kind = .hub ∧ s.node = id := by
  simpa [h.drain.queue_nil] using (h.accounted hc).hubs id hi

theorem ScriptRun.join_section (hc : index.Coherent) (h : ScriptRun index entry script p q)
    {id label : String} (hi : (id, label) ∈ q.joinLabels) :
    ∃ s ∈ script.sections, s.kind = .join ∧ s.label = label ∧ s.node = id := by
  simpa [h.drain.queue_nil] using (h.accounted hc).joins id label hi

end Script

end StoryFlow.Linearize
