import Mathlib.Data.List.Induction
import Mathlib.Data.List.TakeWhile
import StoryFlow.Proofs.Number.Text

/-! # The order of fields

An object lists its index keys in ascending order and then its other keys, none of them twice.
Such a list is what setting its own fields in turn gives, and setting, dropping and mapping fields
keep the order.
-/

namespace StoryFlow.Fields

/-- Two different keys, the first of which stands before the second in an object. -/
def Before (k l : String) : Prop :=
  k ≠ l ∧ ∀ n ∈ index? l, standsBefore n k

instance : DecidableRel Before := fun _ _ => inferInstanceAs (Decidable (_ ∧ _))

/-- Every key stands before all that follow it. -/
def Ordered (fs : Fields) : Prop :=
  fs.keys.Pairwise Before

instance (fs : Fields) : Decidable (Ordered fs) :=
  inferInstanceAs (Decidable (List.Pairwise _ _))

variable {fs : Fields} {k l : String} {v : Json} {n : Nat}

/-- Keys of which no two are equal and none is an index. -/
def Named (ks : List String) : Prop :=
  ks.Nodup ∧ ∀ k ∈ ks, index? k = none

instance (ks : List String) : Decidable (Named ks) :=
  inferInstanceAs (Decidable (_ ∧ _))

theorem Named.sublist {ks ls : List String} (h : Named ls) (hk : ks.Sublist ls) : Named ks :=
  ⟨h.1.sublist hk, fun k hmem => h.2 k (hk.mem hmem)⟩

theorem ordered_of_named (h : Named fs.keys) : Ordered fs :=
  h.1.imp_of_mem fun _ hl hne => ⟨hne, by simp [h.2 _ hl]⟩

@[simp] theorem get?_nil : get? [] k = none := rfl

theorem get?_cons : get? ((l, v) :: fs) k = if k = l then some v else fs.get? k := by
  by_cases h : k = l
  · simp [get?, h]
  · simp [get?, List.lookup_cons, beq_eq_false_iff_ne.mpr h, h]

/-! ## Index keys -/

theorem index?_eq_some (h : index? k = some n) :
    k.toList ≠ [] ∧ (∀ c ∈ k.toList, c.isDigit) ∧ (k.toList.head? ≠ some '0' ∨ k.toList = ['0']) ∧
      n = readDigits k.toList := by
  rw [index?, Option.ite_none_right_eq_some, List.all_eq_true] at h
  exact ⟨h.1.1, h.1.2.1, h.1.2.2.1, (Option.some.inj h.2).symm⟩

theorem digitChar_sub {c : Char} (hc : c.isDigit) : Nat.digitChar (c.toNat - 48) = c := by
  rw [Char.isDigit, Bool.and_eq_true, decide_eq_true_eq, decide_eq_true_eq] at hc
  have hlow : 48 ≤ c.toNat := hc.1
  have hhigh : c.toNat ≤ 57 := hc.2
  have hd : ∀ d < 10, Nat.digitChar d = Char.ofNat (d + 48) := by decide
  rw [hd _ (by omega), Nat.sub_add_cancel hlow, Char.ofNat_toNat]

theorem digit_sub_lt {c : Char} (hc : c.isDigit) : c.toNat - 48 < 10 := by
  rw [Char.isDigit, Bool.and_eq_true, decide_eq_true_eq, decide_eq_true_eq] at hc
  have hhigh : c.toNat ≤ 57 := hc.2
  omega

/-- Digits without a leading zero are the digits of the number that they denote. -/
theorem toDigits_readDigits {cs : List Char} (hne : cs ≠ []) (hd : ∀ c ∈ cs, c.isDigit)
    (hz : cs.head? ≠ some '0') :
    0 < readDigits cs ∧ Nat.toDigits 10 (readDigits cs) = cs := by
  induction cs using List.reverseRecOn with
  | nil => exact absurd rfl hne
  | append_singleton cs c ih =>
    have hc := hd c (by simp)
    have hlast := digit_sub_lt hc
    have hread : readDigits (cs ++ [c]) = 10 * readDigits cs + (c.toNat - 48) := by
      simp [readDigits]
    have hdigit : Nat.toDigits 10 (c.toNat - 48) = [c] := by
      rw [Nat.toDigits_of_lt_base hlast, digitChar_sub hc]
    by_cases hcs : cs = []
    · subst hcs
      have hpos : c.toNat - 48 ≠ 0 := fun h0 => by
        rw [h0] at hdigit
        exact hz (by simpa using hdigit.symm)
      simpa [hread, readDigits, hdigit] using Nat.pos_of_ne_zero hpos
    · obtain ⟨hpos, hdigits⟩ := ih hcs (fun x hx => hd x (by simp [hx]))
        (by rwa [List.head?_append_of_ne_nil _ hcs] at hz)
      refine ⟨by omega, ?_⟩
      rw [hread, ← Nat.toDigits_append_toDigits (by decide) hpos hlast, hdigits, hdigit]

/-- A key is determined by its index. -/
theorem index?_inj (hk : index? k = some n) (hl : index? l = some n) : k = l := by
  have digits {k : String} (h : index? k = some n) : k.toList = Nat.toDigits 10 n := by
    obtain ⟨hne, hd, hz | hz, rfl⟩ := index?_eq_some h
    · exact (toDigits_readDigits hne hd hz).2.symm
    · simp [hz, readDigits]
  rw [← String.ofList_toList (s := k), digits hk, ← digits hl, String.ofList_toList]

theorem before_of_not_standsBefore (hl : index? l = some n) (hne : k ≠ l)
    (hk : standsBefore n k = false) : Before l k := by
  refine ⟨hne.symm, fun m hm => ?_⟩
  rw [standsBefore, Option.mem_def.mp hm] at hk
  have hnm : m ≠ n := fun h => hne (index?_inj (h ▸ hm) hl)
  simp only [Option.any_some, decide_eq_false_iff_not] at hk
  simp only [standsBefore, hl, Option.any_some, decide_eq_true_eq]
  omega

/-- What stands after a key that does not stand before an index does not do so either. -/
theorem Before.not_standsBefore (h : Before k l) (hk : standsBefore n k = false) :
    standsBefore n l = false := by
  cases hl : index? l with
  | none => simp [standsBefore, hl]
  | some m =>
    have hkm := h.2 m hl
    rw [standsBefore, Option.any_eq_true_iff_get] at hkm
    obtain ⟨hsome, hlt⟩ := hkm
    rw [standsBefore, ← Option.some_get hsome] at hk
    simp only [Option.any_some, decide_eq_false_iff_not, decide_eq_true_eq] at hk hlt
    simp only [standsBefore, hl, Option.any_some, decide_eq_false_iff_not]
    omega

/-! ## Setting fields -/

@[simp] theorem any_key_iff : fs.any (·.1 == k) ↔ k ∈ fs.keys := by
  simp [keys]

theorem set_of_mem (h : k ∈ fs.keys) :
    set fs k v = fs.map (fun f => if f.1 == k then (k, v) else f) :=
  if_pos (any_key_iff.mpr h)

theorem set_of_not_mem (h : k ∉ fs.keys) : set fs k v = place k v fs :=
  if_neg (mt any_key_iff.mp h)

theorem keys_set_of_mem (h : k ∈ fs.keys) : (set fs k v).keys = fs.keys := by
  rw [set_of_mem h, keys, keys, List.map_map]
  refine List.map_congr_left fun f _ => ?_
  rw [Function.comp_apply]
  split
  · rename_i hf
    exact (beq_iff_eq.mp hf).symm
  · rfl

theorem place_eq (k : String) (v : Json) (fs : Fields) :
    ∃ before after, fs = before ++ after ∧ place k v fs = before ++ (k, v) :: after := by
  rw [place]
  split
  · exact ⟨fs, [], (List.append_nil _).symm, rfl⟩
  · exact ⟨_, _, List.takeWhile_append_dropWhile.symm, rfl⟩

theorem mem_place {f : String × Json} : f ∈ place k v fs ↔ f = (k, v) ∨ f ∈ fs := by
  obtain ⟨before, after, rfl, hp⟩ := place_eq k v fs
  rw [hp, List.mem_append, List.mem_cons, List.mem_append]
  tauto

/-- Every field of the outcome is an old one or the one that is set. -/
theorem mem_set {f : String × Json} (h : f ∈ set fs k v) : f = (k, v) ∨ f ∈ fs ∧ f.1 ≠ k := by
  by_cases hk : k ∈ fs.keys
  · rw [set_of_mem hk, List.mem_map] at h
    obtain ⟨g, hg, rfl⟩ := h
    by_cases hgk : g.1 = k
    · exact .inl (by simp [hgk])
    · exact .inr (by simpa [hgk] using hg)
  · rw [set_of_not_mem hk, mem_place] at h
    exact h.imp_right fun hf => ⟨hf, fun e => hk (e ▸ List.mem_map_of_mem hf)⟩

theorem mem_keys_set : k ∈ (set fs k v).keys := by
  by_cases hk : k ∈ fs.keys
  · rwa [keys_set_of_mem hk]
  · rw [set_of_not_mem hk]
    exact List.mem_map.mpr ⟨(k, v), mem_place.mpr (.inl rfl), rfl⟩

theorem set_set : set (set fs k v) k v = set fs k v := by
  rw [set_of_mem mem_keys_set]
  conv_rhs => rw [← List.map_id (set fs k v)]
  refine List.map_congr_left fun f hf => ?_
  rcases mem_set hf with rfl | ⟨-, hne⟩
  · simp
  · simp [hne]

theorem get?_set_self : (set fs k v).get? k = some v := by
  have hsome : ((set fs k v).get? k).isSome := by
    rw [get?, Option.isSome_iff_ne_none, ne_eq, List.lookup_eq_none_iff]
    intro hnone
    have hmem : k ∈ (set fs k v).keys := mem_keys_set
    obtain ⟨f, hf, hk⟩ := List.mem_map.mp hmem
    simpa [hk] using hnone f hf
  obtain ⟨w, hw⟩ := Option.isSome_iff_exists.mp hsome
  obtain ⟨l₁, l₂, hl, -⟩ := List.lookup_eq_some_iff.mp hw
  have hmem : (k, w) ∈ set fs k v := by simp [hl]
  rcases mem_set hmem with h | ⟨-, h⟩
  · rw [hw, (Prod.mk.inj h).2]
  · exact absurd rfl h

theorem get?_set_of_ne (h : l ≠ k) : (set fs k v).get? l = fs.get? l := by
  have hbeq : (l == k) = false := beq_eq_false_iff_ne.mpr h
  by_cases hk : k ∈ fs.keys
  · rw [set_of_mem hk]
    clear hk
    induction fs with
    | nil => rfl
    | cons f fs ih =>
      obtain ⟨a, w⟩ := f
      simp only [get?, List.map_cons] at ih ⊢
      split
      · rename_i ha
        simp only [List.lookup_cons, beq_iff_eq.mp ha, hbeq, ih]
      · simp only [List.lookup_cons, ih]
  · obtain ⟨before, after, rfl, hp⟩ := place_eq k v fs
    rw [set_of_not_mem hk, hp, get?, get?, List.lookup_append, List.lookup_append,
      List.lookup_cons, hbeq]

/-! ## Keeping the order -/

/-- From the first key that does not stand before an index on, none does. -/
theorem Ordered.not_standsBefore_of_mem_dropWhile (h : Ordered fs) {f : String × Json}
    (hf : f ∈ fs.dropWhile fun f => standsBefore n f.1) : standsBefore n f.1 = false := by
  have hhead := List.head?_dropWhile_not (fun f => standsBefore n f.1) fs
  have hrest := h.sublist ((List.dropWhile_sublist fun f => standsBefore n f.1).map Prod.fst)
  cases hdrop : fs.dropWhile (fun f => standsBefore n f.1) with
  | nil => simp [hdrop] at hf
  | cons g gs =>
    rw [hdrop] at hf hhead hrest
    have hg : standsBefore n g.1 = false := hhead
    rcases List.mem_cons.mp hf with rfl | hf
    · exact hg
    · exact (List.rel_of_pairwise_cons hrest (List.mem_map_of_mem hf)).not_standsBefore hg

theorem Ordered.place (h : Ordered fs) (hk : k ∉ fs.keys) : Ordered (place k v fs) := by
  have hne {f : String × Json} (hf : f ∈ fs) : f.1 ≠ k := fun e => hk (e ▸ List.mem_map_of_mem hf)
  rw [Fields.place, Ordered, keys, List.pairwise_map]
  rw [Ordered, keys, List.pairwise_map] at h
  cases hindex : index? k with
  | none =>
    refine List.pairwise_append.mpr ⟨h, List.pairwise_singleton _ _, fun f hf g hg => ?_⟩
    rw [List.mem_singleton.mp hg]
    exact ⟨hne hf, by simp [hindex]⟩
  | some n =>
    have hbefore : ∀ f ∈ fs.takeWhile (fun f => standsBefore n f.1), Before f.1 k := by
      intro f hf
      refine ⟨hne (List.takeWhile_subset _ hf), ?_⟩
      simpa [hindex] using List.mem_takeWhile_imp hf
    have hafter : ∀ f ∈ fs.dropWhile (fun f => standsBefore n f.1), Before k f.1 := fun f hf =>
      before_of_not_standsBefore hindex (hne (List.dropWhile_subset _ hf))
        (Ordered.not_standsBefore_of_mem_dropWhile (List.pairwise_map.mpr h) hf)
    rw [← List.takeWhile_append_dropWhile (p := fun f => standsBefore n f.1) (l := fs)] at h
    obtain ⟨htake, hdrop, hcross⟩ := List.pairwise_append.mp h
    refine List.pairwise_append.mpr ⟨htake, List.pairwise_cons.mpr ⟨hafter, hdrop⟩, ?_⟩
    intro f hf g hg
    rcases List.mem_cons.mp hg with rfl | hg
    · exact hbefore f hf
    · exact hcross f hf g hg

theorem Ordered.set (h : Ordered fs) : Ordered (set fs k v) := by
  by_cases hk : k ∈ fs.keys
  · rwa [Ordered, keys_set_of_mem hk]
  · rw [set_of_not_mem hk]
    exact h.place hk

theorem Ordered.filter (h : Ordered fs) (p : String × Json → Bool) : Ordered (fs.filter p) :=
  h.sublist (List.filter_sublist.map _)

theorem ofList_append_singleton {pairs : List (String × Json)} {p : String × Json} :
    ofList (pairs ++ [p]) = set (ofList pairs) p.1 p.2 :=
  List.foldl_append

theorem ordered_ofList (pairs : List (String × Json)) : Ordered (ofList pairs) := by
  induction pairs using List.reverseRecOn with
  | nil => exact List.Pairwise.nil
  | append_singleton pairs f ih =>
    rw [ofList_append_singleton]
    exact ih.set

theorem mem_ofList {pairs : List (String × Json)} {f : String × Json} (h : f ∈ ofList pairs) :
    f ∈ pairs := by
  induction pairs using List.reverseRecOn with
  | nil => exact h
  | append_singleton pairs g ih =>
    rw [ofList_append_singleton] at h
    rcases mem_set h with rfl | ⟨hf, -⟩
    · simp
    · exact List.mem_append_left _ (ih hf)

theorem get?_ofList_concat {pairs : List (String × Json)} :
    (ofList (pairs ++ [(k, v)])).get? k = some v := by
  rw [ofList_append_singleton]
  exact get?_set_self

theorem get?_ofList_of_not_mem {pairs : List (String × Json)} (h : k ∉ pairs.map Prod.fst) :
    (ofList pairs).get? k = none := by
  rw [get?, List.lookup_eq_none_iff]
  intro f hf
  have hne : k ≠ f.1 := fun he => h (List.mem_map.mpr ⟨f, mem_ofList hf, he.symm⟩)
  exact bne_iff_ne.mpr hne

/-- A key that stands after all others is set behind them. -/
theorem set_eq_append (h : Ordered (fs ++ [(k, v)])) : set fs k v = fs ++ [(k, v)] := by
  rw [Ordered, keys, List.map_append] at h
  have hlast : ∀ f ∈ fs, Before f.1 k := fun f hf =>
    (List.pairwise_append.mp h).2.2 f.1 (List.mem_map_of_mem hf) k (by simp)
  have hk : k ∉ fs.keys := fun hmem => by
    obtain ⟨f, hf, rfl⟩ := List.mem_map.mp hmem
    exact (hlast f hf).1 rfl
  rw [set_of_not_mem hk, place]
  split
  · rfl
  · rename_i n hn
    have hall : ∀ f ∈ fs, standsBefore n f.1 := fun f hf => (hlast f hf).2 n hn
    simp [List.takeWhile_eq_self_iff.mpr hall, List.dropWhile_eq_nil_iff.mpr hall]

theorem ofList_eq_self (h : Ordered fs) : ofList fs = fs := by
  induction fs using List.reverseRecOn with
  | nil => rfl
  | append_singleton fs f ih =>
    have hfs : Ordered fs := h.sublist ((List.sublist_append_left _ _).map _)
    rw [ofList_append_singleton, ih hfs, set_eq_append h]

theorem place_perm (k : String) (v : Json) (fs : Fields) : (place k v fs).Perm ((k, v) :: fs) := by
  obtain ⟨before, after, rfl, hp⟩ := place_eq k v fs
  rw [hp]
  exact List.perm_middle

/-- Fields with different keys are all kept, in another order maybe. -/
theorem ofList_perm {pairs : List (String × Json)} (h : (pairs.map Prod.fst).Nodup) :
    (ofList pairs).Perm pairs := by
  induction pairs using List.reverseRecOn with
  | nil => exact List.Perm.refl _
  | append_singleton pairs f ih =>
    rw [List.map_append, List.nodup_append] at h
    have hf : f.1 ∉ (ofList pairs).keys := fun hmem => by
      obtain ⟨g, hg, hgf⟩ := List.mem_map.mp hmem
      exact h.2.2 g.1 (List.mem_map_of_mem (mem_ofList hg)) f.1 (by simp) hgf
    rw [ofList_append_singleton, set_of_not_mem hf]
    exact (place_perm _ _ _).trans (((ih h.1).cons f).trans (List.perm_append_singleton _ _).symm)

/-- A table of names keeps its fields if their keys differ and none of them is the lost key. -/
theorem table_perm {pairs : List (String × Json)} (h : (pairs.map Prod.fst).Nodup)
    (hlost : ∀ f ∈ pairs, f.1 ≠ lostKey) : (table pairs).Perm pairs := by
  have hkept : pairs.filter (·.1 != lostKey) = pairs :=
    List.filter_eq_self.mpr fun f hf => by simpa using hlost f hf
  rw [table, hkept]
  exact ofList_perm h

/-! ## Mapping values -/

/-- The fields with a function applied to each value. -/
def mapValues (f : Json → Json) (fs : Fields) : Fields :=
  fs.map fun p => (p.1, f p.2)

variable {f : Json → Json}

theorem mapValues_nil : mapValues f [] = [] := rfl

theorem mapValues_cons : mapValues f ((k, v) :: fs) = (k, f v) :: mapValues f fs := rfl

theorem mapValues_map {α : Type} {name : α → String} {write : α → Json} {as : List α} :
    mapValues f (as.map fun a => (name a, write a)) = as.map fun a => (name a, f (write a)) := by
  simp [mapValues]

@[simp] theorem keys_mapValues : (mapValues f fs).keys = fs.keys := by
  simp [mapValues, keys]

@[simp] theorem mapValues_mapValues {g : Json → Json} :
    mapValues f (mapValues g fs) = mapValues (f ∘ g) fs := by
  simp [mapValues]

@[simp] theorem get?_mapValues : (mapValues f fs).get? k = (fs.get? k).map f := by
  induction fs with
  | nil => rfl
  | cons p fs ih =>
    obtain ⟨a, w⟩ := p
    simp only [get?, mapValues, List.map_cons, List.lookup_cons] at ih ⊢
    split
    · rfl
    · exact ih

theorem ordered_mapValues : Ordered (mapValues f fs) ↔ Ordered fs := by
  rw [Ordered, keys_mapValues, Ordered]

theorem place_mapValues : place k (f v) (mapValues f fs) = mapValues f (place k v fs) := by
  simp only [place, mapValues]
  split
  · simp
  · simp [List.takeWhile_map, List.dropWhile_map, Function.comp_def]

theorem set_mapValues : set (mapValues f fs) k (f v) = mapValues f (set fs k v) := by
  by_cases hk : k ∈ fs.keys
  · rw [set_of_mem hk, set_of_mem (by rwa [keys_mapValues])]
    simp only [mapValues, List.map_map]
    refine List.map_congr_left fun p _ => ?_
    simp only [Function.comp_apply]
    split <;> rfl
  · rw [set_of_not_mem hk, set_of_not_mem (by rwa [keys_mapValues]), place_mapValues]

theorem kept_mapValues : kept (mapValues f fs) = mapValues f (kept fs) := by
  simp [kept, mapValues, List.filter_map, Function.comp_def]

theorem ofList_mapValues : ofList (mapValues f fs) = mapValues f (ofList fs) := by
  induction fs using List.reverseRecOn with
  | nil => rfl
  | append_singleton fs p ih =>
    rw [mapValues, List.map_append, List.map_singleton, ofList_append_singleton,
      ofList_append_singleton, ← set_mapValues, ← ih]
    rfl

theorem table_mapValues : table (mapValues f fs) = mapValues f (table fs) := by
  rw [table, table, ← ofList_mapValues]
  exact congrArg ofList kept_mapValues

end StoryFlow.Fields
