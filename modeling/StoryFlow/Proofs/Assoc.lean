import Mathlib.Algebra.BigOperators.Group.List.Basic
import Mathlib.Algebra.Ring.Nat
import Mathlib.Data.List.Induction
import Mathlib.Data.List.Nodup
import StoryFlow.Assoc

/-! # Looking up in ordered association lists

Of several pairs with one key the last one counts, every key has one place, and the group of a key
holds the values with that key in their order. Keys that are listed once each may be used to count
values key by key.
-/

namespace StoryFlow.Assoc

variable {κ α : Type} [DecidableEq κ]

theorem lookup_cons_ite (p : κ × α) (m : List (κ × α)) (k : κ) :
    List.lookup k (p :: m) = if k = p.1 then some p.2 else m.lookup k := by
  rw [List.lookup_cons]
  by_cases h : k = p.1
  · simp [h]
  · rw [if_neg h, beq_eq_false_iff_ne.mpr h]

theorem lookup_put (key : κ) (value : α) (m : List (κ × α)) (k : κ) :
    (put key value m).lookup k = if k = key then some value else m.lookup k := by
  induction m with
  | nil => simp [put, lookup_cons_ite]
  | cons p m ih =>
    by_cases hp : p.1 = key
    · subst hp
      simp only [put, if_true, lookup_cons_ite]
      split <;> simp_all
    · simp only [put, hp, if_false, lookup_cons_ite, ih]
      split
      · rename_i h
        subst h
        simp [hp]
      · rfl

theorem lookup_foldl_put (pairs m : List (κ × α)) (k : κ) :
    (pairs.foldl (fun m p => put p.1 p.2 m) m).lookup k =
      (pairs.reverse.lookup k).or (m.lookup k) := by
  induction pairs generalizing m with
  | nil => simp
  | cons p pairs ih =>
    rw [List.foldl_cons, ih, lookup_put, List.reverse_cons, List.lookup_append, Option.or_assoc]
    congr 1
    rw [lookup_cons_ite, List.lookup_nil]
    split <;> rfl

/-- The last pair with a key counts. -/
theorem lookup_ofPairs (pairs : List (κ × α)) (k : κ) :
    (ofPairs pairs).lookup k = pairs.reverse.lookup k := by
  rw [ofPairs, lookup_foldl_put, List.lookup_nil, Option.or_none]

theorem put_of_not_mem {key : κ} (value : α) {m : List (κ × α)} (h : key ∉ m.map Prod.fst) :
    put key value m = m ++ [(key, value)] := by
  induction m with
  | nil => rfl
  | cons p m ih =>
    rw [List.map_cons, List.mem_cons, not_or] at h
    rw [put, if_neg (Ne.symm h.1), ih h.2, List.cons_append]

/-- Pairs with different keys are kept as they come. -/
theorem ofPairs_eq_self {pairs : List (κ × α)} (h : (pairs.map Prod.fst).Nodup) :
    ofPairs pairs = pairs := by
  suffices hm : ∀ m : List (κ × α), ((m ++ pairs).map Prod.fst).Nodup →
      pairs.foldl (fun m p => put p.1 p.2 m) m = m ++ pairs from hm [] h
  clear h
  induction pairs with
  | nil => exact fun m _ => (List.append_nil m).symm
  | cons p pairs ih =>
    intro m hd
    have hp : p.1 ∉ m.map Prod.fst := by
      intro hm
      rw [List.map_append, List.map_cons] at hd
      exact List.disjoint_of_nodup_append hd hm List.mem_cons_self
    rw [List.foldl_cons, put_of_not_mem p.2 hp, ih, List.append_assoc, List.singleton_append]
    rwa [List.append_assoc, List.singleton_append]

theorem keys_put (key : κ) (value : α) (m : List (κ × α)) :
    (put key value m).map Prod.fst =
      if key ∈ m.map Prod.fst then m.map Prod.fst else m.map Prod.fst ++ [key] := by
  induction m with
  | nil => simp [put]
  | cons p m ih =>
    by_cases hp : p.1 = key
    · simp [put, hp]
    · have hp' : ¬ key = p.1 := fun h => hp h.symm
      simp only [put, hp, if_false, List.map_cons, ih, List.mem_cons, hp', false_or]
      split <;> simp

theorem nodup_keys_put {key : κ} {value : α} {m : List (κ × α)}
    (h : (m.map Prod.fst).Nodup) : ((put key value m).map Prod.fst).Nodup := by
  rw [keys_put]
  split
  · exact h
  · rename_i hk
    rw [List.nodup_append]
    refine ⟨h, List.nodup_singleton key, ?_⟩
    rintro a ha b hb rfl
    exact hk (List.mem_singleton.mp hb ▸ ha)

theorem nodup_keys_ofPairs (pairs : List (κ × α)) :
    ((ofPairs pairs).map Prod.fst).Nodup := by
  suffices h : ∀ m : List (κ × α), (m.map Prod.fst).Nodup →
      ((pairs.foldl (fun m p => put p.1 p.2 m) m).map Prod.fst).Nodup from h [] (by simp)
  induction pairs with
  | nil => exact fun m h => h
  | cons p pairs ih => exact fun m h => ih _ (nodup_keys_put h)

theorem mem_of_lookup {m : List (κ × α)} {k : κ} {v : α} (h : m.lookup k = some v) :
    (k, v) ∈ m := by
  obtain ⟨before, after, rfl, _⟩ := List.lookup_eq_some_iff.mp h
  simp

theorem lookup_isSome_iff {m : List (κ × α)} {k : κ} :
    (m.lookup k).isSome ↔ k ∈ m.map Prod.fst := by
  induction m with
  | nil => simp
  | cons p m ih =>
    rw [lookup_cons_ite]
    split <;> simp_all

theorem lookup_of_mem {m : List (κ × α)} {k : κ} {v : α} (hn : (m.map Prod.fst).Nodup)
    (h : (k, v) ∈ m) : m.lookup k = some v := by
  induction m with
  | nil => simp at h
  | cons p m ih =>
    rw [List.map_cons, List.nodup_cons] at hn
    rw [lookup_cons_ite]
    rcases List.mem_cons.mp h with rfl | h
    · simp
    · have hk : k ≠ p.1 := by
        rintro rfl
        exact hn.1 (List.mem_map.mpr ⟨_, h, rfl⟩)
      rw [if_neg hk, ih hn.2 h]

/-- With different keys, the order of the pairs does not matter. -/
theorem lookup_perm {m m' : List (κ × α)} (hp : m.Perm m') (hn : (m.map Prod.fst).Nodup) (k : κ) :
    m.lookup k = m'.lookup k := by
  have hn' : (m'.map Prod.fst).Nodup := (hp.map Prod.fst).nodup_iff.mp hn
  ext v
  constructor
  · exact fun h => lookup_of_mem hn' (hp.mem_iff.mp (mem_of_lookup h))
  · exact fun h => lookup_of_mem hn (hp.mem_iff.mpr (mem_of_lookup h))

theorem lookup_push (key : κ) (value : α) (m : List (κ × List α)) (k : κ) :
    ((push key value m).lookup k).getD [] =
      (m.lookup k).getD [] ++ if key = k then [value] else [] := by
  induction m with
  | nil =>
    simp only [push, lookup_cons_ite, List.lookup_nil]
    by_cases h : k = key
    · simp [h]
    · simp [h, Ne.symm h]
  | cons p m ih =>
    by_cases hp : p.1 = key
    · subst hp
      simp only [push, if_true, lookup_cons_ite]
      by_cases h : k = p.1
      · simp [h]
      · simp [h, Ne.symm h]
    · simp only [push, hp, if_false, lookup_cons_ite]
      split
      · rename_i h
        subst h
        simp [Ne.symm hp]
      · exact ih

theorem lookup_group (key : α → κ) (values : List α) (k : κ) :
    ((group key values).lookup k).getD [] = values.filter (key · = k) := by
  suffices h : ∀ m : List (κ × List α),
      ((values.foldl (fun m a => push (key a) a m) m).lookup k).getD [] =
        (m.lookup k).getD [] ++ values.filter (key · = k) by
    simpa [group] using h []
  induction values with
  | nil => simp
  | cons a values ih =>
    intro m
    rw [List.foldl_cons, ih, lookup_push, List.append_assoc, List.filter_cons]
    by_cases h : key a = k <;> simp [h]

theorem keys_push (key : κ) (value : α) (m : List (κ × List α)) :
    (push key value m).map Prod.fst = (put key [] m).map Prod.fst := by
  induction m with
  | nil => rfl
  | cons p m ih =>
    rw [push, put]
    split
    · rfl
    · rw [List.map_cons, List.map_cons, ih]

theorem group_append_singleton (key : α → κ) (values : List α) (a : α) :
    group key (values ++ [a]) = push (key a) a (group key values) :=
  List.foldl_append

theorem nodup_keys_group (key : α → κ) (values : List α) :
    ((group key values).map Prod.fst).Nodup := by
  induction values using List.reverseRecOn with
  | nil => exact List.nodup_nil
  | append_singleton values a ih =>
    rw [group_append_singleton, keys_push]
    exact nodup_keys_put ih

/-- A group holds the values with its key, in their order. -/
theorem eq_filter_of_mem_group {key : α → κ} {values as : List α} {k : κ}
    (h : (k, as) ∈ group key values) : as = values.filter (key · = k) := by
  rw [← lookup_group, lookup_of_mem (nodup_keys_group key values) h, Option.getD_some]

theorem key_of_mem_group {key : α → κ} {values as : List α} {k : κ}
    (h : (k, as) ∈ group key values) {a : α} (ha : a ∈ as) : key a = k := by
  rw [eq_filter_of_mem_group h] at ha
  simpa using (List.mem_filter.mp ha).2

theorem ne_nil_of_mem_push {key : κ} {value : α} {m : List (κ × List α)}
    (hm : ∀ g ∈ m, g.2 ≠ []) : ∀ g ∈ push key value m, g.2 ≠ [] := by
  induction m with
  | nil => exact List.forall_mem_singleton.mpr (List.cons_ne_nil _ _)
  | cons p m ih =>
    rw [List.forall_mem_cons] at hm
    rw [push]
    split
    · exact List.forall_mem_cons.mpr ⟨List.append_ne_nil_of_right_ne_nil _ (by simp), hm.2⟩
    · exact List.forall_mem_cons.mpr ⟨hm.1, ih hm.2⟩

/-- No group is empty. -/
theorem ne_nil_of_mem_group (key : α → κ) (values : List α) :
    ∀ g ∈ group key values, g.2 ≠ [] := by
  induction values using List.reverseRecOn with
  | nil => exact List.forall_mem_nil _
  | append_singleton values a ih =>
    rw [group_append_singleton]
    exact ne_nil_of_mem_push ih

theorem flatMap_push_perm (key : κ) (value : α) (m : List (κ × List α)) :
    ((push key value m).flatMap Prod.snd).Perm (m.flatMap Prod.snd ++ [value]) := by
  induction m with
  | nil => exact List.Perm.refl _
  | cons p m ih =>
    rw [push]
    split
    · simpa using (List.perm_append_singleton value (m.flatMap Prod.snd)).symm.append_left p.2
    · simpa using ih.append_left p.2

/-- Grouping loses nothing. -/
theorem flatMap_group_perm (key : α → κ) (values : List α) :
    ((group key values).flatMap Prod.snd).Perm values := by
  induction values using List.reverseRecOn with
  | nil => exact List.Perm.refl _
  | append_singleton values a ih =>
    rw [group_append_singleton]
    exact (flatMap_push_perm (key a) a (group key values)).trans (ih.append_right [a])

theorem push_map {β : Type} (f : α → β) (key : κ) (value : α) (m : List (κ × List α)) :
    push key (f value) (m.map fun g => (g.1, g.2.map f)) =
      (push key value m).map fun g => (g.1, g.2.map f) := by
  induction m with
  | nil => rfl
  | cons p m ih =>
    rw [List.map_cons, push, push]
    split
    · simp
    · rw [ih, List.map_cons]

/-- Changed values stay in their groups if their keys stay. -/
theorem group_map {β : Type} {key : α → κ} {key' : β → κ} {f : α → β}
    (h : ∀ a, key' (f a) = key a) (values : List α) :
    group key' (values.map f) = (group key values).map fun g => (g.1, g.2.map f) := by
  induction values using List.reverseRecOn with
  | nil => rfl
  | append_singleton values a ih =>
    rw [List.map_append, List.map_singleton, group_append_singleton, group_append_singleton, ih, h,
      push_map]

/-- The last item with an id counts. -/
theorem lastPosition?_eq_lookup (id : α → κ) (items : List α) (key : κ) :
    lastPosition? id items key =
      ((items.zipIdx 1).map fun p => (id p.1, p.2)).reverse.lookup key := by
  suffices h : ∀ (pairs : List (α × Nat)) (found : Option Nat),
      pairs.foldl (fun found p => if id p.1 = key then some p.2 else found) found =
        ((pairs.map fun p => (id p.1, p.2)).reverse.lookup key).or found by
    rw [lastPosition?, h, Option.or_none]
  intro pairs
  induction pairs with
  | nil => exact fun _ => rfl
  | cons p pairs ih =>
    intro found
    rw [List.foldl_cons, ih, List.map_cons, List.reverse_cons, List.lookup_append, Option.or_assoc,
      lookup_cons_ite, List.lookup_nil]
    simp only [eq_comm (a := key)]
    split <;> rfl

theorem nodup_eraseDups {β : Type} [BEq β] [LawfulBEq β] (ks : List β) : ks.eraseDups.Nodup := by
  -- the induction is on the length, since dropping what equals the head does not leave the tail
  obtain ⟨n, hn⟩ : ∃ n, n = ks.length := ⟨_, rfl⟩
  induction n using Nat.strongRecOn generalizing ks with
  | _ n ih =>
    cases ks with
    | nil => simp
    | cons k ks =>
      rw [List.eraseDups_cons, List.nodup_cons]
      refine ⟨by simp [List.mem_eraseDups], ih _ ?_ _ rfl⟩
      rw [hn, List.length_cons]
      exact Nat.lt_succ_of_le (List.length_filter_le _ _)

theorem countP_eq_sum_keys (p : α → Bool) (key : α → κ) {keys : List κ} (hd : keys.Nodup)
    {values : List α} (hv : ∀ a ∈ values, key a ∈ keys) :
    values.countP p = (keys.map fun k => values.countP fun a => p a ∧ key a = k).sum := by
  induction values with
  | nil => simp
  | cons a values ih =>
    rw [List.forall_mem_cons] at hv
    have hone : (keys.map fun k => if p a ∧ key a = k then 1 else 0).sum = if p a then 1 else 0 := by
      rw [List.sum_map_eq_nsmul_single (key a)]
      · simp [List.count_eq_one_of_mem hd hv.1]
      · intro k hk _
        simp [Ne.symm hk]
    simp only [List.countP_cons, List.sum_map_add, ih hv.2, decide_eq_true_eq, hone]

end StoryFlow.Assoc
