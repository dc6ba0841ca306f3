import StoryFlow.Json.Checked
import StoryFlow.Proofs.Json.Each

/-! # What readers give

What a reader ensures of the values that it takes from a regular document, one lemma a reader, and
what the readers give for the values that an export writes.
-/

namespace StoryFlow

/-- Fields as they are stored in a project: of a regular document and without the lost key. -/
structure Fields.Stored (fs : Fields) : Prop where
  regular : (Json.obj fs).Regular
  kept : Fields.kept fs = fs

deriving instance DecidableEq for Checked

namespace Checked

variable {α β : Type} {a : α} {b : β} {f : α → β}

@[simp] theorem map_valid : f <$> (valid a : Checked α) = valid (f a) := rfl

@[simp] theorem valid_seq_valid : (valid f : Checked (α → β)) <*> valid a = valid (f a) := rfl

theorem map_eq_valid {x : Checked α} : f <$> x = valid b ↔ ∃ a, x = valid a ∧ f a = b := by
  cases x with
  | valid a => simp
  | faulty is => exact ⟨(nomatch ·), fun ⟨_, h, _⟩ => nomatch h⟩

theorem seq_eq_valid {g : Checked (α → β)} {x : Checked α} :
    g <*> x = valid b ↔ ∃ f a, g = valid f ∧ x = valid a ∧ f a = b := by
  cases g with
  | valid f =>
    cases x with
    | valid a => simp
    | faulty is => exact ⟨(nomatch ·), fun ⟨_, _, _, h, _⟩ => nomatch h⟩
  | faulty is =>
    cases x with
    | valid a => exact ⟨(nomatch ·), fun ⟨_, _, h, _⟩ => nomatch h⟩
    | faulty more => exact ⟨(nomatch ·), fun ⟨_, _, h, _⟩ => nomatch h⟩

@[simp] theorem under_valid {key : String} : (valid a).under key = valid a := rfl

theorem under_eq_valid {key : String} {x : Checked α} : x.under key = valid a ↔ x = valid a := by
  cases x with
  | valid b => rfl
  | faulty is => exact ⟨(nomatch ·), fun h => nomatch h⟩

end Checked

namespace Reader

variable {α β : Type} {r : Reader α} {P : α → Prop} {fs : Fields}

/-! ## Reading a regular document -/

/-- What is read from a regular document has the property. -/
def Ensures (r : Reader α) (P : α → Prop) : Prop :=
  ∀ j a, (∀ v ∈ j, Json.Regular v) → r j = .valid a → P a

theorem ofKind_eq_valid {expected : Json.Kind} {take : Json → Option α} {j : Option Json} {a : α}
    (h : ofKind expected take j = .valid a) : ∃ v, j = some v ∧ take v = some a := by
  cases j with
  | none => exact nomatch h
  | some v =>
    refine ⟨v, rfl, ?_⟩
    rw [ofKind] at h
    cases ht : take v with
    | none => simp [ht, Checked.fault] at h
    | some b => simpa [ht] using h

theorem object_eq_valid {read : Fields → Checked α} {j : Option Json} {a : α}
    (h : object read j = .valid a) : ∃ fs, j = some (.obj fs) ∧ read fs = .valid a := by
  cases j with
  | none => exact nomatch h
  | some v =>
    cases v with
    | obj fs => exact ⟨fs, rfl, h⟩
    | _ => exact nomatch h

theorem ensures_number : number.Ensures fun n => n.isFinite := by
  intro j n hj h
  obtain ⟨v, rfl, hv⟩ := ofKind_eq_valid h
  cases v with
  | num m =>
    obtain rfl := Option.some.inj hv
    exact Json.Each.num_iff.mp (hj _ rfl)
  | _ => exact nomatch hv

theorem stored_kept (h : (Json.obj fs).Regular) : (Fields.kept fs).Stored where
  regular :=
    have h := Json.Each.obj_iff.mp h
    .obj (h.1.filter _) fun f hf => h.2 f (List.mem_of_mem_filter hf)
  kept := by simp [Fields.kept]

theorem ensures_fields : fields.Ensures Fields.Stored := by
  intro j fs hj h
  obtain ⟨v, rfl, hv⟩ := ofKind_eq_valid h
  cases v with
  | obj gs =>
    obtain rfl := Option.some.inj hv
    exact stored_kept (hj _ rfl)
  | _ => exact nomatch hv

namespace Ensures

theorem nullable (h : r.Ensures P) : (nullable r).Ensures fun o => ∀ a ∈ o, P a := by
  intro j o hj ho a ha
  rw [Reader.nullable.eq_def] at ho
  split at ho
  · exact nomatch (Checked.valid.inj ho) ▸ ha
  · exact nomatch (Checked.valid.inj ho) ▸ ha
  · obtain ⟨b, hb, rfl⟩ := Checked.map_eq_valid.mp ho
    obtain rfl := Option.some.inj ha
    exact h _ _ hj hb

theorem maybe (h : r.Ensures P) : (maybe r).Ensures fun o => ∀ p ∈ o, ∀ a ∈ p, P a := by
  intro j o hj ho p hp
  cases j with
  | none => exact nomatch (Checked.valid.inj ho) ▸ hp
  | some v =>
    obtain ⟨b, hb, rfl⟩ := Checked.map_eq_valid.mp ho
    obtain rfl := Option.some.inj hp
    exact h.nullable _ _ hj hb

theorem withDefault {default : α} (hd : P default) (h : r.Ensures P) :
    (withDefault default r).Ensures P := by
  intro j a hj ha
  cases j with
  | none => exact Checked.valid.inj ha ▸ hd
  | some v => exact h _ _ hj ha

theorem orElse {default : α} (hd : P default) (h : r.Ensures P) : (orElse default r).Ensures P := by
  intro j a hj ha
  obtain ⟨o, ho, rfl⟩ := Checked.map_eq_valid.mp ha
  cases o with
  | none => exact hd
  | some b => exact h.nullable _ _ hj ho b rfl

theorem elements (h : r.Ensures P) {items : List Json} (hj : ∀ j ∈ items, j.Regular) :
    ∀ {n as}, elements r n items = .valid as → ∀ a ∈ as, P a := by
  induction items with
  | nil =>
    intro n as has
    obtain rfl := Checked.valid.inj has
    exact fun _ ha => nomatch ha
  | cons j items ih =>
    intro n as has
    obtain ⟨f, as, hf, htail, rfl⟩ := Checked.seq_eq_valid.mp has
    obtain ⟨a, ha, rfl⟩ := Checked.map_eq_valid.mp hf
    have hhead := h _ _ (by simpa using hj j) (Checked.under_eq_valid.mp ha)
    exact List.forall_mem_cons.mpr ⟨hhead, ih (List.forall_mem_of_forall_mem_cons hj) htail⟩

theorem list (h : r.Ensures P) : (list r).Ensures fun as => ∀ a ∈ as, P a := by
  refine withDefault (fun _ h => nomatch h) fun j as hj has => ?_
  cases j with
  | none => exact nomatch has
  | some v =>
    cases v with
    | arr items => exact h.elements (Json.Each.arr_iff.mp (hj _ rfl)) has
    | _ => exact nomatch has

theorem field {key : String} {a : α} (h : r.Ensures P) (hfs : (Json.obj fs).Regular)
    (ha : field fs key r = .valid a) : P a :=
  h _ _ (fun _ hv => hfs.get? hv) (Checked.under_eq_valid.mp ha)

theorem object {read : Fields → Checked α}
    (h : ∀ fs a, (Json.obj fs).Regular → read fs = .valid a → P a) : (object read).Ensures P := by
  intro j a hj ha
  obtain ⟨fs, rfl, ha⟩ := object_eq_valid ha
  exact h fs a (hj _ rfl) ha

end Ensures

theorem ensures_freeForm : freeForm.Ensures Fields.Stored :=
  .orElse ⟨.obj List.Pairwise.nil (by simp), rfl⟩ ensures_fields

theorem reference_ne_empty {j : Option Json} {s : Option String} (h : reference j = .valid s) :
    s ≠ some "" := by
  obtain ⟨t, -, rfl⟩ := Checked.map_eq_valid.mp h
  intro h
  simp [Option.filter_eq_some_iff] at h

theorem ensures_reference : reference.Ensures fun s => s ≠ some "" :=
  fun _ _ _ => reference_ne_empty

/-- Every element of a list is read from a value of its own. -/
theorem exists_of_mem_elements {items : List Json} {a : α} {n : Nat} {as : List α}
    (h : elements r n items = .valid as) (ha : a ∈ as) : ∃ v, r (some v) = .valid a := by
  induction items generalizing n as with
  | nil =>
    obtain rfl := Checked.valid.inj h
    exact nomatch ha
  | cons j items ih =>
    obtain ⟨f, as, hf, htail, rfl⟩ := Checked.seq_eq_valid.mp h
    obtain ⟨b, hb, rfl⟩ := Checked.map_eq_valid.mp hf
    rcases List.mem_cons.mp ha with rfl | ha
    · exact ⟨j, Checked.under_eq_valid.mp hb⟩
    · exact ih htail ha

theorem exists_of_mem_list {j : Option Json} {as : List α} {a : α} (h : list r j = .valid as)
    (ha : a ∈ as) : ∃ v, r (some v) = .valid a := by
  cases j with
  | none =>
    obtain rfl := Checked.valid.inj h
    exact nomatch ha
  | some v =>
    cases v with
    | arr items => exact exists_of_mem_elements h ha
    | _ => exact nomatch h

/-! ## Reading what is written -/

@[simp] theorem string_str (s : String) : string (some (.str s)) = .valid s := rfl

@[simp] theorem boolean_bool (b : Bool) : boolean (some (.bool b)) = .valid b := rfl

@[simp] theorem ident_str (s : String) : ident (some (.str s)) = .valid s := rfl

@[simp] theorem flag_bool (b : Bool) : flag (some (.bool b)) = .valid b := rfl

@[simp] theorem freeForm_obj (fs : Fields) : freeForm (some (.obj fs)) = .valid (Fields.kept fs) :=
  rfl

@[simp] theorem text_ofOption (s : Option String) : text (some (.ofOption .str s)) = .valid s := by
  cases s <;> rfl

theorem reference_ofOption {s : Option String} (h : s ≠ some "") :
    reference (some (.ofOption .str s)) = .valid s := by
  cases s with
  | none => rfl
  | some s =>
    have hs : s ≠ "" := fun e => h (e ▸ rfl)
    simp [reference, Json.ofOption, nullable, ident, Checked.map, hs]

@[simp] theorem nullable_number_ofOption (f : β → Number) (x : Option β) :
    nullable number (some (.ofOption (fun b => .num (f b)) x)) = .valid (x.map f) := by
  cases x <;> rfl

@[simp] theorem maybe_number_ofOption (f : β → Number) (x : Option β) :
    maybe number (some (.ofOption (fun b => .num (f b)) x)) = .valid (some (x.map f)) := by
  cases x <;> rfl

@[simp] theorem maybe_none (r : Reader α) : maybe r none = .valid none := rfl

@[simp] theorem maybe_fields_obj (fs : Fields) :
    maybe fields (some (.obj fs)) = .valid (some (some (Fields.kept fs))) :=
  rfl

theorem elements_map {write : β → Json} {give : β → α} {bs : List β}
    (h : ∀ b ∈ bs, r (some (write b)) = .valid (give b)) (n : Nat) :
    elements r n (bs.map write) = .valid (bs.map give) := by
  induction bs generalizing n with
  | nil => rfl
  | cons b bs ih =>
    rw [List.map_cons, elements, h b List.mem_cons_self,
      ih (List.forall_mem_of_forall_mem_cons h)]
    rfl

theorem list_map {write : β → Json} {give : β → α} {bs : List β}
    (h : ∀ b ∈ bs, r (some (write b)) = .valid (give b)) :
    list r (some (.arr (bs.map write))) = .valid (bs.map give) :=
  elements_map h 0

end Reader

end StoryFlow
