import Mathlib.Data.List.Induction
import StoryFlow.Proofs.Assoc
import StoryFlow.Proofs.FreshName
import StoryFlow.UniqueKeys

/-! # Unique keys are unique

No key is handed out twice, and an item that asks for a key finds it handed out, to itself or to
an item before it. The key of an item is the one that it asks for, or continues it behind an
underscore with the id of the item. Where the ids of the items differ, the pairs hold every key
that was handed out: each item has the first of its candidates that no item before it has, and the
items behind it change nothing.
-/

namespace StoryFlow

namespace UniqueKeys

variable {α : Type} {id wanted : α → String} {items : List α} {taken : List String}
  {i key name : String}

section Choose

theorem choose_not_mem (taken : List String) (i name : String) : choose taken i name ∉ taken := by
  unfold choose
  split
  · exact freshName_not_mem taken _
  · assumption

theorem choose_of_not_mem (h : name ∉ taken) : choose taken i name = name :=
  if_neg h

/-- What stands between the wanted and the chosen key: nothing, the id, or the id with a number. -/
theorem choose_eq (taken : List String) (i name : String) :
    choose taken i name = name ∨ ∃ rest, choose taken i name = name ++ "_" ++ rest ∧
      (rest = i ∨ ∃ k : Nat, rest = i ++ "_" ++ toString k) := by
  unfold choose
  split
  · rcases freshName_eq taken (name ++ "_" ++ i) with h | ⟨k, h⟩
    · exact Or.inr ⟨i, h, Or.inl rfl⟩
    · refine Or.inr ⟨i ++ "_" ++ toString k, ?_, Or.inr ⟨k, rfl⟩⟩
      rw [h]
      simp only [String.append_assoc]
  · exact Or.inl rfl

/-- The keys that an item tries: the wanted one, then with its id, then with a number as well. -/
def candidate (i name : String) : Nat → String
  | 0 => name
  | 1 => name ++ "_" ++ i
  | n + 2 => name ++ "_" ++ i ++ "_" ++ toString (n + 2)

theorem length_continued (s t : String) : (s ++ "_" ++ t).length = s.length + 1 + t.length := by
  rw [String.length_append, String.length_append]
  rfl

/-- Each continuation is longer than what it continues. -/
theorem candidate_inj {m n : Nat} (h : candidate i name m = candidate i name n) : m = n := by
  wlog hmn : m ≤ n
  · exact (this h.symm (by omega)).symm
  have hl := congrArg String.length h
  match m, n with
  | 0, 0 | 1, 1 => rfl
  | 0, 1 | 0, n + 2 | 1, n + 2 =>
    simp only [candidate, length_continued] at hl
    omega
  | m + 2, n + 2 => exact numbered_inj h

/-- What is chosen is the first candidate that is free, after at most as many tries as there are
taken keys. -/
theorem choose_first (taken : List String) (i name : String) :
    ∃ n ≤ taken.length, choose taken i name = candidate i name n ∧
      ∀ m ≤ n, candidate i name m ∈ taken ↔ m < n := by
  suffices h : ∃ n, choose taken i name = candidate i name n ∧
      ∀ m < n, candidate i name m ∈ taken by
    obtain ⟨n, he, hbefore⟩ := h
    have hfree : candidate i name n ∉ taken := he ▸ choose_not_mem taken i name
    refine ⟨n, le_length_of_forall_mem (fun _ _ => candidate_inj) hbefore, he, fun m hm =>
      ⟨fun hmem => ?_, hbefore m⟩⟩
    exact lt_of_le_of_ne hm fun hmn => hfree (hmn ▸ hmem)
  by_cases h₀ : name ∈ taken
  · by_cases h₁ : name ++ "_" ++ i ∈ taken
    · obtain ⟨k, -, he, hbefore, -⟩ :=
        firstNumbered_first taken (name ++ "_" ++ i) taken.length 2
      refine ⟨k + 2, ?_, fun m hm => ?_⟩
      · rw [choose, if_pos h₀, freshName, if_pos h₁, he, Nat.add_comm 2]
        rfl
      · obtain _ | _ | m := m
        · exact h₀
        · exact h₁
        · simpa only [candidate, Nat.add_comm 2] using hbefore m (by omega)
    · refine ⟨1, by rw [choose, if_pos h₀, freshName, if_neg h₁]; rfl, fun m hm => ?_⟩
      obtain rfl : m = 0 := by omega
      exact h₀
  · exact ⟨0, choose_of_not_mem h₀, by simp⟩

end Choose

theorem get?_add (u : UniqueKeys) (item name k : String) :
    (u.add item name).get? k =
      if k = item then some (choose u.taken item name) else u.get? k :=
  Assoc.lookup_put _ _ _ _

theorem ofList_concat (items : List α) (a : α) :
    ofList (items ++ [a]) id wanted = (ofList items id wanted).add (id a) (wanted a) :=
  List.foldl_concat ..

/-- Exactly the ids of the items have keys. -/
theorem get?_ofList_isSome : ((ofList items id wanted).get? i).isSome ↔ i ∈ items.map id := by
  induction items using List.reverseRecOn with
  | nil => simp [ofList, empty, get?]
  | append_singleton items a ih =>
    rw [ofList_concat, get?_add, List.map_append, List.mem_append, ← ih]
    by_cases h : i = id a <;> simp [h]

/-- A key was chosen for an item with its id. -/
theorem choose_of_get? (h : (ofList items id wanted).get? i = some key) :
    ∃ a ∈ items, id a = i ∧ ∃ taken, key = choose taken i (wanted a) := by
  induction items using List.reverseRecOn with
  | nil => simp [ofList, empty, get?] at h
  | append_singleton items a ih =>
    rw [ofList_concat, get?_add] at h
    split at h
    · rename_i hi
      exact ⟨a, by simp, hi.symm, _, hi ▸ (Option.some.inj h).symm⟩
    · obtain ⟨b, hb, hrest⟩ := ih h
      exact ⟨b, List.mem_append_left _ hb, hrest⟩

theorem nodup_taken : (ofList items id wanted).taken.Nodup := by
  induction items using List.reverseRecOn with
  | nil => exact List.nodup_nil
  | append_singleton items a ih =>
    rw [ofList_concat, add, ← List.concat_eq_append]
    exact ih.concat (choose_not_mem _ _ _)

theorem length_taken : (ofList items id wanted).taken.length = items.length := by
  induction items using List.reverseRecOn with
  | nil => rfl
  | append_singleton items a ih =>
    rw [ofList_concat, add, List.length_append, List.length_append, ih]
    rfl

/-- An item that asks for a key finds it handed out. -/
theorem wanted_mem_taken {a : α} (h : a ∈ items) : wanted a ∈ (ofList items id wanted).taken := by
  induction items using List.reverseRecOn with
  | nil => simp at h
  | append_singleton items b ih =>
    rw [ofList_concat, add, List.mem_append]
    rcases List.mem_append.mp h with h | h
    · exact Or.inl (ih h)
    · obtain rfl := List.mem_singleton.mp h
      by_cases ht : wanted a ∈ (ofList items id wanted).taken
      · exact Or.inl ht
      · exact Or.inr (List.mem_singleton.mpr (choose_of_not_mem ht).symm)

theorem nodup_ids : ((ofList items id wanted).pairs.map Prod.fst).Nodup := by
  induction items using List.reverseRecOn with
  | nil => exact List.nodup_nil
  | append_singleton items a ih =>
    rw [ofList_concat]
    exact Assoc.nodup_keys_put ih

section Distinct

variable (hd : (items.map id).Nodup)

include hd

theorem values_ofList :
    (ofList items id wanted).pairs.map Prod.snd = (ofList items id wanted).taken := by
  induction items using List.reverseRecOn with
  | nil => rfl
  | append_singleton items a ih =>
    rw [List.map_append, List.nodup_append] at hd
    obtain ⟨hitems, -, ha⟩ := hd
    have hnew : id a ∉ (ofList items id wanted).pairs.map Prod.fst := by
      rw [← Assoc.lookup_isSome_iff]
      intro hs
      exact ha _ (get?_ofList_isSome.mp hs) _ (List.mem_singleton_self _) rfl
    rw [ofList_concat, add, Assoc.put_of_not_mem _ hnew, List.map_append, ih hitems]
    rfl

/-- Every key that was handed out is that of an item. -/
theorem get?_of_mem_taken (h : key ∈ (ofList items id wanted).taken) :
    ∃ a ∈ items, (ofList items id wanted).get? (id a) = some key := by
  rw [← values_ofList hd] at h
  obtain ⟨⟨i, k⟩, hm, rfl⟩ := List.mem_map.mp h
  have hk := Assoc.lookup_of_mem nodup_ids hm
  obtain ⟨a, ha, rfl⟩ := List.mem_map.mp (get?_ofList_isSome.mp (Option.isSome_of_eq_some hk))
  exact ⟨a, ha, hk⟩

theorem mem_taken_iff :
    key ∈ (ofList items id wanted).taken ↔
      ∃ a ∈ items, (ofList items id wanted).get? (id a) = some key := by
  refine ⟨get?_of_mem_taken hd, fun ⟨a, _, h⟩ => ?_⟩
  rw [← values_ofList hd]
  exact List.mem_map_of_mem (Assoc.mem_of_lookup h)

/-- Items with one key are one item. -/
theorem id_eq_of_get? {j : String} (hi : (ofList items id wanted).get? i = some key)
    (hj : (ofList items id wanted).get? j = some key) : i = j := by
  have hn : ((ofList items id wanted).pairs.map Prod.snd).Nodup :=
    values_ofList hd ▸ nodup_taken
  have he := List.inj_on_of_nodup_map hn (Assoc.mem_of_lookup hi) (Assoc.mem_of_lookup hj) rfl
  exact (Prod.mk.inj he).1

end Distinct

section Arrival

variable {xs ys before after : List α} {a b : α}

/-- Items that come later take no key from an item. -/
theorem get?_ofList_append (hd : ((xs ++ ys).map id).Nodup) (ha : a ∈ xs) :
    (ofList (xs ++ ys) id wanted).get? (id a) = (ofList xs id wanted).get? (id a) := by
  induction ys using List.reverseRecOn with
  | nil => rw [List.append_nil]
  | append_singleton ys b ih =>
    rw [← List.append_assoc] at hd ⊢
    rw [List.map_append, List.nodup_append] at hd
    obtain ⟨hinit, -, hb⟩ := hd
    have hne : id a ≠ id b :=
      hb _ (List.mem_map_of_mem (List.mem_append_left _ ha)) _ (List.mem_singleton_self _)
    rw [ofList_concat, get?_add, if_neg hne, ih hinit]

/-- The key of an item depends on the items before it. -/
theorem get?_ofList_middle (hd : ((before ++ a :: after).map id).Nodup) :
    (ofList (before ++ a :: after) id wanted).get? (id a) =
      some (choose (ofList before id wanted).taken (id a) (wanted a)) := by
  rw [List.append_cons] at hd ⊢
  rw [get?_ofList_append hd (by simp), ofList_concat, get?_add, if_pos rfl]

theorem mem_taken_before_iff (hd : ((before ++ after).map id).Nodup) :
    key ∈ (ofList before id wanted).taken ↔
      ∃ b ∈ before, (ofList (before ++ after) id wanted).get? (id b) = some key := by
  have hbefore : (before.map id).Nodup := by
    rw [List.map_append, List.nodup_append] at hd
    exact hd.1
  rw [mem_taken_iff hbefore]
  exact exists_congr fun b => and_congr_right fun hb => by rw [get?_ofList_append hd hb]

end Arrival

/-- Each item has the first of its candidates that no item before it has, after at most as many
tries as there are items before it. An item that asks for a key that none before it has gets this
key, different items have different keys, and no key depends on the items that come later. -/
theorem keys_first_come {α : Type} (id wanted : α → String) (xs ys : List α)
    (hd : ((xs ++ ys).map id).Nodup) :
    let keyOf := fun a => (ofList (xs ++ ys) id wanted).get? (id a)
    (∀ before a after, xs ++ ys = before ++ a :: after →
      (∃ n ≤ before.length, keyOf a = some (candidate (id a) (wanted a) n) ∧
        ∀ m ≤ n, (∃ b ∈ before, keyOf b = some (candidate (id a) (wanted a) m)) ↔ m < n) ∧
      ((∀ b ∈ before, keyOf b ≠ some (wanted a)) → keyOf a = some (wanted a))) ∧
    (∀ a ∈ xs ++ ys, ∀ b ∈ xs ++ ys, keyOf a = keyOf b → a = b) ∧
    ∀ a ∈ xs, keyOf a = (ofList xs id wanted).get? (id a) := by
  intro keyOf
  refine ⟨fun before a after he => ?_, fun a ha b hb hab => ?_, fun a ha =>
    get?_ofList_append hd ha⟩
  · have hkey : keyOf a = some (choose (ofList before id wanted).taken (id a) (wanted a)) := by
      simp only [keyOf, he]
      exact get?_ofList_middle (he ▸ hd)
    have htaken (key : String) :
        key ∈ (ofList before id wanted).taken ↔ ∃ b ∈ before, keyOf b = some key := by
      simp only [keyOf, he]
      exact mem_taken_before_iff (he ▸ hd)
    refine ⟨?_, fun hfree => ?_⟩
    · obtain ⟨n, hn, hchoose, htried⟩ :=
        choose_first (ofList before id wanted).taken (id a) (wanted a)
      rw [length_taken] at hn
      refine ⟨n, hn, by rw [hkey, hchoose], fun m hm => ?_⟩
      rw [← htaken, htried m hm]
    · have hnew : wanted a ∉ (ofList before id wanted).taken := by
        rw [htaken]
        exact fun ⟨b, hb, h⟩ => hfree b hb h
      rw [hkey, choose_of_not_mem hnew]
  · have hsome : (keyOf a).isSome := get?_ofList_isSome.mpr (List.mem_map_of_mem ha)
    obtain ⟨key, hkey⟩ := Option.isSome_iff_exists.mp hsome
    have hid : id a = id b := id_eq_of_get? hd hkey (hab.symm.trans hkey)
    exact List.inj_on_of_nodup_map hd ha hb hid

/-- Three items that ask for what is taken, with the keys that they get. -/
theorem halls_first_come :
    let early := [("1", "hall"), ("2", "hall"), ("3", "hall_2")]
    let late := [("2_3", "hall")]
    ((early ++ late).map Prod.fst).Nodup ∧
    (ofList (early ++ late) Prod.fst Prod.snd).pairs =
      [("1", "hall"), ("2", "hall_2"), ("3", "hall_2_3"), ("2_3", "hall_2_3_2")] ∧
    ∃ n ≤ 3, (ofList (early ++ late) Prod.fst Prod.snd).get? "2_3" =
      some (candidate "2_3" "hall" n) := by
  intro early late
  have hd : ((early ++ late).map Prod.fst).Nodup := by decide
  obtain ⟨hfirst, -, -⟩ := keys_first_come Prod.fst Prod.snd early late hd
  obtain ⟨⟨n, hn, hkey, -⟩, -⟩ := hfirst early ("2_3", "hall") [] rfl
  exact ⟨hd, by decide +kernel, n, hn, hkey⟩

end UniqueKeys

end StoryFlow
