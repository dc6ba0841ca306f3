import Mathlib.Data.List.Nodup
import Mathlib.Logic.Relation
import StoryFlow.Validate.Graph

/-! # The search along connections

The search meets an id when a connection leads to it from one that it has met before. Every id is
queued at most once after the first ones, so the rounds suffice to empty the queue, and then the
ids that were met are those that paths of connections lead to.
-/

namespace StoryFlow.Validate

/-- A connection leads from one id to another. -/
def Joins (connections : List Connection) (a b : String) : Prop :=
  ∃ c ∈ connections, c.source = a ∧ c.target = b

/-- A path of connections leads to an id from one of the first ids. -/
def Reaches (connections : List Connection) (starts : List String) (id : String) : Prop :=
  ∃ start ∈ starts, Relation.ReflTransGen (Joins connections) start id

variable {connections : List Connection} {starts queue visited ids : List String} {a b id : String}

theorem Reaches.start (h : id ∈ starts) : Reaches connections starts id :=
  ⟨id, h, .refl⟩

theorem Reaches.tail (ha : Reaches connections starts a) (hab : Joins connections a b) :
    Reaches connections starts b := by
  obtain ⟨start, hs, hp⟩ := ha
  exact ⟨start, hs, hp.tail hab⟩

theorem mem_unvisited : id ∈ unvisited visited ids ↔ id ∈ ids ∧ id ∉ visited := by
  induction ids generalizing visited with
  | nil => simp [unvisited]
  | cons i ids ih =>
    rw [unvisited]
    split
    · rename_i hi
      rw [ih, List.mem_cons, or_and_right, or_iff_right]
      rintro ⟨rfl, hn⟩
      exact hn hi
    · rename_i hi
      rw [List.mem_cons, ih, List.mem_cons, List.mem_cons]
      constructor
      · rintro (rfl | ⟨hm, hn⟩)
        · exact ⟨Or.inl rfl, hi⟩
        · exact ⟨Or.inr hm, fun h => hn (Or.inr h)⟩
      · rintro ⟨rfl | hm, hn⟩
        · exact Or.inl rfl
        · by_cases he : id = i
          · exact Or.inl he
          · exact Or.inr ⟨hm, fun h => h.elim he hn⟩

theorem nodup_unvisited (visited ids : List String) : (unvisited visited ids).Nodup := by
  induction ids generalizing visited with
  | nil => exact List.nodup_nil
  | cons i ids ih =>
    rw [unvisited]
    split
    · exact ih visited
    · rw [List.nodup_cons]
      exact ⟨fun h => (mem_unvisited.mp h).2 List.mem_cons_self, ih _⟩

/-- The ids that connections lead to from an id, as far as they are not visited yet. -/
def fresh (connections : List Connection) (visited : List String) (id : String) : List String :=
  unvisited visited ((connections.filter (·.source == id)).map Connection.target)

theorem mem_fresh : b ∈ fresh connections visited a ↔ Joins connections a b ∧ b ∉ visited := by
  simp only [fresh, mem_unvisited, Joins, List.mem_map, List.mem_filter, beq_iff_eq, and_assoc]

/-- The connections that lead to ids that are not visited yet. -/
def openCount (connections : List Connection) (visited : List String) : Nat :=
  connections.countP fun c => c.target ∉ visited

/-- Every fresh id closes a connection. -/
theorem length_fresh_add_openCount_le (connections : List Connection) (visited : List String)
    (id : String) :
    (fresh connections visited id).length +
        openCount connections (visited ++ fresh connections visited id) ≤
      openCount connections visited := by
  have hn : (fresh connections visited id).Nodup := nodup_unvisited _ _
  have hsub : fresh connections visited id ⊆
      (connections.filter fun c => c.target ∈ fresh connections visited id ∧
        c.target ∉ visited).map Connection.target := by
    intro b hb
    obtain ⟨⟨c, hc, -, rfl⟩, hv⟩ := mem_fresh.mp hb
    exact List.mem_map_of_mem (List.mem_filter.mpr ⟨hc, decide_eq_true ⟨hb, hv⟩⟩)
  have hle := hn.length_le_of_subset hsub
  rw [List.length_map, ← List.countP_eq_length_filter] at hle
  have hsplit := List.countP_eq_countP_filter_add connections (fun c => c.target ∉ visited)
    fun c => c.target ∈ fresh connections visited id
  simp only [List.countP_filter] at hsplit
  have hfresh : connections.countP (fun c => c.target ∈ fresh connections visited id ∧
      c.target ∉ visited) = connections.countP fun c => (decide (c.target ∉ visited) &&
        decide (c.target ∈ fresh connections visited id)) :=
    List.countP_congr fun c _ => by simp [and_comm]
  have hrest : openCount connections (visited ++ fresh connections visited id) =
      connections.countP fun c => (decide (c.target ∉ visited) &&
        !decide (c.target ∈ fresh connections visited id)) :=
    List.countP_congr fun c _ => by simp
  rw [hrest, openCount]
  omega

/-- A round of the search: the first id of the queue gives way to the fresh ones behind it. -/
inductive Round (connections : List Connection) :
    List String × List String → List String × List String → Prop where
  | next (id : String) (queue visited : List String) : Round connections (id :: queue, visited)
      (queue ++ fresh connections visited id, visited ++ fresh connections visited id)

/-- The rounds that are left: one for each id of the queue, and one for each connection to an id
that is not visited yet, which a connection leads to only once. -/
def roundsLeft (connections : List Connection) (s : List String × List String) : Nat :=
  s.1.length + openCount connections s.2

theorem Round.roundsLeft_lt {s t : List String × List String} (h : Round connections s t) :
    roundsLeft connections t < roundsLeft connections s := by
  cases h with
  | next id queue visited =>
    have hle := length_fresh_add_openCount_le connections visited id
    simp only [roundsLeft, List.length_append, List.length_cons]
    omega

/-- No search goes on forever. -/
theorem wellFounded_round (connections : List Connection) :
    WellFounded fun s t => Round connections t s :=
  Subrelation.wf Round.roundsLeft_lt (measure (roundsLeft connections)).wf

/-- With enough rounds the search ends with an empty queue. -/
theorem rounds_spread {rounds : Nat} (hr : roundsLeft connections (queue, visited) ≤ rounds) :
    Relation.ReflTransGen (Round connections) (queue, visited)
      ([], spread connections rounds queue visited) := by
  induction rounds generalizing queue visited with
  | zero =>
    obtain rfl : queue = [] := List.length_eq_zero_iff.mp (Nat.eq_zero_of_add_eq_zero
      (Nat.le_zero.mp hr)).1
    exact .refl
  | succ rounds ih =>
    cases queue with
    | nil => exact .refl
    | cons id queue =>
      have hnext : Round connections (id :: queue, visited) _ := .next id queue visited
      exact .head hnext (ih (Nat.lt_succ_iff.mp (Nat.lt_of_lt_of_le hnext.roundsLeft_lt hr)))

theorem rounds_reachable (connections : List Connection) (starts : List String) :
    Relation.ReflTransGen (Round connections) (starts, starts)
      ([], reachable connections starts) :=
  rounds_spread (Nat.add_le_add_left List.countP_le_length _)

/-- What the search has met can be reached, and only what is queued may lead to more. -/
structure Searched (connections : List Connection) (starts queue visited : List String) :
    Prop where
  first : starts ⊆ visited
  queued : queue ⊆ visited
  reached : ∀ id ∈ visited, Reaches connections starts id
  closed : ∀ a ∈ visited, a ∈ queue ∨ ∀ b, Joins connections a b → b ∈ visited

theorem Searched.init (connections : List Connection) (starts : List String) :
    Searched connections starts starts starts :=
  ⟨List.Subset.refl _, List.Subset.refl _, fun _ h => .start h, fun _ h => Or.inl h⟩

theorem Searched.next (h : Searched connections starts (id :: queue) visited) :
    Searched connections starts (queue ++ fresh connections visited id)
      (visited ++ fresh connections visited id) where
  first := List.subset_append_of_subset_left _ h.first
  queued := by
    rw [List.append_subset]
    exact ⟨List.subset_append_of_subset_left _ fun i hi => h.queued (List.mem_cons_of_mem id hi),
      List.subset_append_right _ _⟩
  reached := by
    rw [List.forall_mem_append]
    refine ⟨h.reached, fun b hb => ?_⟩
    exact (h.reached id (h.queued List.mem_cons_self)).tail (mem_fresh.mp hb).1
  closed := by
    intro a ha
    rcases List.mem_append.mp ha with ha | ha
    · rcases h.closed a ha with hq | hc
      · rcases List.mem_cons.mp hq with rfl | hq
        · refine Or.inr fun b hb => ?_
          by_cases hv : b ∈ visited
          · exact List.mem_append_left _ hv
          · exact List.mem_append_right _ (mem_fresh.mpr ⟨hb, hv⟩)
        · exact Or.inl (List.mem_append_left _ hq)
      · exact Or.inr fun b hb => List.mem_append_left _ (hc b hb)
    · exact Or.inl (List.mem_append_right _ ha)

theorem Searched.rounds {s t : List String × List String} (h : Searched connections starts s.1 s.2)
    (hr : Relation.ReflTransGen (Round connections) s t) : Searched connections starts t.1 t.2 := by
  induction hr with
  | refl => exact h
  | tail _ hround ih =>
    cases hround with
    | next id queue visited => exact ih.next

/-- The search finds exactly the ids that paths of connections lead to. -/
theorem mem_reachable_iff : id ∈ reachable connections starts ↔ Reaches connections starts id := by
  have h : Searched connections starts [] (reachable connections starts) :=
    (Searched.init connections starts).rounds (rounds_reachable connections starts)
  constructor
  · exact h.reached id
  · rintro ⟨start, hs, hp⟩
    induction hp with
    | refl => exact h.first hs
    | tail _ hab ih => exact (h.closed _ ih).elim (absurd · List.not_mem_nil) fun hc => hc _ hab

end StoryFlow.Validate
