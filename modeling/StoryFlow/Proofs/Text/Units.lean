import Mathlib.Data.List.Lex
import Mathlib.Data.List.Sort
import StoryFlow.Text.Units

/-! # Sorting by code units

A name can be read back from its units, so the order of units is a total order of names, and a
sorted list is determined by what it holds of each name in its order.
-/

namespace StoryFlow.Text

theorem unitsOfChar_ne_nil (c : Char) : unitsOfChar c ≠ [] := by
  simp only [unitsOfChar]
  split <;> simp

/-- A unit of the basic plane is no surrogate, so the first unit tells where a character ends. -/
theorem unitsOfChar_append_inj {c d : Char} {us vs : List Nat}
    (h : unitsOfChar c ++ us = unitsOfChar d ++ vs) : c = d ∧ us = vs := by
  have hc : c.toNat < 0xD800 ∨ 0xDFFF < c.toNat ∧ c.toNat < 0x110000 := c.valid
  have hd : d.toNat < 0xD800 ∨ 0xDFFF < d.toNat ∧ d.toNat < 0x110000 := d.valid
  rw [← Char.toNat_inj]
  by_cases hcb : c.toNat < 0x10000 <;> by_cases hdb : d.toNat < 0x10000 <;>
    simp only [unitsOfChar, hcb, hdb, if_true, if_false, List.cons_append, List.nil_append,
      List.cons.injEq] at h
  · exact h
  · obtain ⟨hfirst, -⟩ := h
    omega
  · obtain ⟨hfirst, -⟩ := h
    omega
  · obtain ⟨hfirst, hsecond, hrest⟩ := h
    exact ⟨by omega, hrest⟩

theorem flatMap_unitsOfChar_inj (cs ds : List Char)
    (h : cs.flatMap unitsOfChar = ds.flatMap unitsOfChar) : cs = ds := by
  induction cs generalizing ds with
  | nil =>
    cases ds with
    | nil => rfl
    | cons d ds =>
      rw [List.flatMap_nil, List.flatMap_cons, eq_comm, List.append_eq_nil_iff] at h
      exact absurd h.1 (unitsOfChar_ne_nil d)
  | cons c cs ih =>
    cases ds with
    | nil =>
      rw [List.flatMap_nil, List.flatMap_cons, List.append_eq_nil_iff] at h
      exact absurd h.1 (unitsOfChar_ne_nil c)
    | cons d ds =>
      rw [List.flatMap_cons, List.flatMap_cons] at h
      obtain ⟨rfl, hrest⟩ := unitsOfChar_append_inj h
      rw [ih ds hrest]

theorem units_injective {s t : String} (h : units s = units t) : s = t :=
  String.toList_injective (flatMap_unitsOfChar_inj s.toList t.toList h)

section Order

variable {a b c : String}

theorem unitsLE_iff : unitsLE a b ↔ units a ≤ units b := by
  rw [unitsLE, List.lex_eq_decide_lex]
  simp [← not_lt]

theorem unitsLE_trans (hab : unitsLE a b) (hbc : unitsLE b c) : unitsLE a c :=
  unitsLE_iff.mpr ((unitsLE_iff.mp hab).trans (unitsLE_iff.mp hbc))

theorem unitsLE_total (a b : String) : unitsLE a b ∨ unitsLE b a := by
  rw [unitsLE_iff, unitsLE_iff]
  exact le_total (units a) (units b)

theorem unitsLE_antisymm (hab : unitsLE a b) (hba : unitsLE b a) : a = b :=
  units_injective ((unitsLE_iff.mp hab).antisymm (unitsLE_iff.mp hba))

end Order

section Stable

variable {α : Type} {name : α → String} {l m : List α}

/-- Is the name of one element not after that of another? -/
def nameLE (name : α → String) (a b : α) : Bool :=
  unitsLE (name a) (name b)

theorem nameLE_trans (name : α → String) (a b c : α) (hab : nameLE name a b)
    (hbc : nameLE name b c) : nameLE name a c :=
  unitsLE_trans hab hbc

theorem nameLE_total (name : α → String) (a b : α) : nameLE name a b || nameLE name b a := by
  rw [Bool.or_eq_true]
  exact unitsLE_total (name a) (name b)

theorem nameLE_of_eq {a b : α} (h : name a = name b) : nameLE name a b := by
  rw [nameLE, h]
  exact (unitsLE_total (name b) (name b)).elim id id

theorem sortByUnits_perm (name : α → String) (l : List α) : (sortByUnits name l).Perm l :=
  List.mergeSort_perm l _

/-- Elements are sorted by the names that they are mapped to. -/
theorem map_sortByUnits {β : Type} (f : β → α) (l : List β) :
    (sortByUnits (name ∘ f) l).map f = sortByUnits name (l.map f) :=
  List.map_mergeSort fun _ _ _ _ => rfl

theorem pairwise_sortByUnits (name : α → String) (l : List α) :
    (sortByUnits name l).Pairwise (nameLE name · ·) :=
  List.pairwise_mergeSort (nameLE_trans name) (nameLE_total name) l

/-- Elements of different names are sorted in strictly ascending order. -/
theorem strict_sortByUnits (h : (l.map name).Nodup) :
    (sortByUnits name l).Pairwise fun a b => units (name a) < units (name b) := by
  have hne : (sortByUnits name l).Pairwise (name · ≠ name ·) :=
    List.pairwise_map.mp (((sortByUnits_perm name l).map name).nodup_iff.mpr h)
  refine ((pairwise_sortByUnits name l).and hne).imp fun ⟨hle, hne⟩ => ?_
  exact lt_of_le_of_ne (unitsLE_iff.mp hle) (mt units_injective hne)

/-- The elements of one name are sorted as they stand. -/
theorem pairwise_filter (name : α → String) (l : List α) (k : String) :
    (l.filter (name · = k)).Pairwise (nameLE name · ·) := by
  apply List.pairwise_of_forall_mem_list
  intro a ha b hb
  apply nameLE_of_eq
  rw [of_decide_eq_true (List.mem_filter.mp ha).2, of_decide_eq_true (List.mem_filter.mp hb).2]

/-- A permutation that keeps the elements of one name in their order has no others of that name. -/
theorem filter_eq_of_sublist {k : String} (hp : m.Perm l)
    (hs : (l.filter (name · = k)).Sublist m) : m.filter (name · = k) = l.filter (name · = k) := by
  have hfilter := hs.filter (name · = k)
  rw [List.filter_filter] at hfilter
  simp only [Bool.and_self] at hfilter
  exact (hfilter.eq_of_length (hp.filter (name · = k)).length_eq.symm).symm

/-- Sorting keeps the elements of one name in their order. -/
theorem filter_sortByUnits (name : α → String) (l : List α) (k : String) :
    (sortByUnits name l).filter (name · = k) = l.filter (name · = k) :=
  filter_eq_of_sublist (sortByUnits_perm name l) <|
    List.sublist_mergeSort (nameLE_trans name) (nameLE_total name) (pairwise_filter name l k)
      List.filter_sublist

theorem mem_iff_of_filter_eq (h : ∀ k, l.filter (name · = k) = m.filter (name · = k)) (a : α) :
    a ∈ l ↔ a ∈ m := by
  have ha := congrArg (a ∈ ·) (h (name a))
  simpa using ha

/-- A sorted list is determined by what it holds of each name. -/
theorem eq_of_pairwise_nameLE (hl : l.Pairwise (nameLE name · ·))
    (hm : m.Pairwise (nameLE name · ·))
    (h : ∀ k, l.filter (name · = k) = m.filter (name · = k)) : l = m := by
  induction l generalizing m with
  | nil =>
    cases m with
    | nil => rfl
    | cons b m => simpa using (mem_iff_of_filter_eq h b).mpr List.mem_cons_self
  | cons a l ih =>
    cases m with
    | nil => simpa using (mem_iff_of_filter_eq h a).mp List.mem_cons_self
    | cons b m =>
      rw [List.pairwise_cons] at hl hm
      have hname : name a = name b := by
        apply unitsLE_antisymm
        · rcases List.mem_cons.mp ((mem_iff_of_filter_eq h b).mpr List.mem_cons_self) with rfl | hb
          · exact nameLE_of_eq rfl
          · exact hl.1 b hb
        · rcases List.mem_cons.mp ((mem_iff_of_filter_eq h a).mp List.mem_cons_self) with rfl | ha
          · exact nameLE_of_eq rfl
          · exact hm.1 a ha
      have hhead := h (name a)
      rw [List.filter_cons_of_pos (by simp), List.filter_cons_of_pos (by simp [hname])] at hhead
      obtain ⟨rfl, -⟩ := List.cons.inj hhead
      have htail : ∀ k, l.filter (name · = k) = m.filter (name · = k) := by
        intro k
        have hk := h k
        simp only [List.filter_cons] at hk
        split at hk
        · exact (List.cons.inj hk).2
        · exact hk
      rw [ih hl.2 hm.2 htail]

/-- So the sorted list depends on nothing else of the order in which a list is given. -/
theorem sortByUnits_eq (h : ∀ k, l.filter (name · = k) = m.filter (name · = k)) :
    sortByUnits name l = sortByUnits name m := by
  apply eq_of_pairwise_nameLE (pairwise_sortByUnits name l) (pairwise_sortByUnits name m)
  intro k
  rw [filter_sortByUnits, filter_sortByUnits, h k]

/-- Insertion sorts in the same way, by recursion on the list. -/
theorem sortByUnits_eq_insertionSort (name : α → String) (l : List α) :
    sortByUnits name l = l.insertionSort (nameLE name · ·) := by
  have htrans : IsTrans α (nameLE name · ·) := ⟨nameLE_trans name⟩
  have htotal : Std.Total (nameLE name · · : α → α → Prop) :=
    ⟨fun a b => unitsLE_total (name a) (name b)⟩
  apply eq_of_pairwise_nameLE (pairwise_sortByUnits name l) (List.pairwise_insertionSort _ l)
  intro k
  rw [filter_sortByUnits]
  exact (filter_eq_of_sublist (List.perm_insertionSort _ l)
    (List.sublist_insertionSort (pairwise_filter name l k) List.filter_sublist)).symm

end Stable

end StoryFlow.Text
