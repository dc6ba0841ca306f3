import StoryFlow.Json.Printer
import StoryFlow.Proofs.Json.Order

/-! # All parts of a document

A predicate that holds of all numbers and of the fields of all objects, and a map over all
numbers. Printing writes what does not change when the sign of zero is dropped and a number that
is not finite is replaced by `null`.
-/

namespace StoryFlow.Json

/-- What holds of an array or an object when it holds of its members holds of all documents. -/
@[elab_as_elim]
theorem ind {P : Json → Prop} (null : P null) (bool : ∀ b, P (bool b)) (num : ∀ n, P (num n))
    (str : ∀ s, P (str s)) (arr : ∀ items, (∀ j ∈ items, P j) → P (arr items))
    (obj : ∀ fs : Fields, (∀ f ∈ fs, P f.2) → P (obj fs)) : ∀ j, P j :=
  @Json.rec P (fun items => ∀ j ∈ items, P j) (fun fs => ∀ f ∈ fs, P f.2) (fun f => P f.2)
    null bool num str arr obj
    (fun _ h => nomatch h)
    (fun _ _ hj hitems => List.forall_mem_cons.mpr ⟨hj, hitems⟩)
    (fun _ h => nomatch h)
    (fun _ _ hf hfields => List.forall_mem_cons.mpr ⟨hf, hfields⟩)
    (fun _ _ hj => hj)

/-! ## Predicates -/

/-- `P` holds of every number and `Q` of the fields of every object. -/
inductive Each (P : Number → Prop) (Q : Fields → Prop) : Json → Prop
  | null : Each P Q null
  | bool (b : Bool) : Each P Q (bool b)
  | num {n : Number} (h : P n) : Each P Q (num n)
  | str (s : String) : Each P Q (str s)
  | arr {items : List Json} (h : ∀ j ∈ items, Each P Q j) : Each P Q (arr items)
  | obj {fs : Fields} (hq : Q fs) (h : ∀ f ∈ fs, Each P Q f.2) : Each P Q (obj fs)

namespace Each

variable {P P' : Number → Prop} {Q Q' : Fields → Prop} {j : Json} {items : List Json} {fs : Fields}

@[simp] theorem null_iff : Each P Q Json.null ↔ True := iff_true_intro .null

@[simp] theorem bool_iff {b : Bool} : Each P Q (Json.bool b) ↔ True := iff_true_intro (.bool b)

@[simp] theorem str_iff {s : String} : Each P Q (Json.str s) ↔ True := iff_true_intro (.str s)

@[simp] theorem num_iff {n : Number} : Each P Q (Json.num n) ↔ P n :=
  ⟨fun | .num h => h, .num⟩

theorem arr_iff : Each P Q (Json.arr items) ↔ ∀ j ∈ items, Each P Q j :=
  ⟨fun | .arr h => h, .arr⟩

theorem obj_iff : Each P Q (Json.obj fs) ↔ Q fs ∧ ∀ f ∈ fs, Each P Q f.2 :=
  ⟨fun | .obj hq h => ⟨hq, h⟩, fun h => .obj h.1 h.2⟩

section Decidable

variable (P Q) [DecidablePred P] [DecidablePred Q]

mutual

/-- Looks at all parts of a document. -/
def decide : ∀ j, Decidable (Each P Q j)
  | .null => isTrue .null
  | .bool b => isTrue (.bool b)
  | .num n => decidable_of_iff (P n) num_iff.symm
  | .str s => isTrue (.str s)
  | .arr items =>
    have := decideItems items
    decidable_of_iff (∀ j ∈ items, Each P Q j) arr_iff.symm
  | .obj fs =>
    have := decideFields fs
    decidable_of_iff (Q fs ∧ ∀ f ∈ fs, Each P Q f.2) obj_iff.symm

def decideItems : ∀ items : List Json, Decidable (∀ j ∈ items, Each P Q j)
  | [] => isTrue fun _ h => nomatch h
  | j :: items =>
    have := decide j
    have := decideItems items
    decidable_of_iff (Each P Q j ∧ ∀ j ∈ items, Each P Q j) List.forall_mem_cons.symm

def decideFields : ∀ fs : List (String × Json), Decidable (∀ f ∈ fs, Each P Q f.2)
  | [] => isTrue fun _ h => nomatch h
  | (k, j) :: fs =>
    have := decide j
    have := decideFields fs
    decidable_of_iff (Each P Q j ∧ ∀ f ∈ fs, Each P Q f.2) (by simp)

end

instance : DecidablePred (Each P Q) := Each.decide P Q

end Decidable

theorem mono (hp : ∀ n, P n → P' n) (hq : ∀ fs, Q fs → Q' fs) (h : Each P Q j) :
    Each P' Q' j := by
  induction h with
  | null => exact .null
  | bool b => exact .bool b
  | num h => exact .num (hp _ h)
  | str s => exact .str s
  | arr _ ih => exact .arr ih
  | obj h _ ih => exact .obj (hq _ h) ih

theorem and (h : Each P Q j) (h' : Each P' Q' j) :
    Each (fun n => P n ∧ P' n) (fun fs => Q fs ∧ Q' fs) j := by
  induction h with
  | null => exact .null
  | bool b => exact .bool b
  | num h => exact .num ⟨h, num_iff.mp h'⟩
  | str s => exact .str s
  | arr _ ih => exact .arr fun j hj => ih j hj (arr_iff.mp h' j hj)
  | obj h _ ih => exact .obj ⟨h, (obj_iff.mp h').1⟩ fun f hf => ih f hf ((obj_iff.mp h').2 f hf)

@[simp] theorem ofOption_str (s : Option String) : Each P Q (ofOption .str s) := by
  cases s with
  | none => exact .null
  | some s => exact .str s

theorem ofOption_num {n : Option Number} (h : ∀ x ∈ n, P x) : Each P Q (ofOption .num n) := by
  cases n with
  | none => exact .null
  | some x => exact .num (h x rfl)

theorem get? {k : String} (h : Each P Q (Json.obj fs)) (hj : fs.get? k = some j) : Each P Q j := by
  obtain ⟨before, after, rfl, -⟩ := List.lookup_eq_some_iff.mp hj
  exact (obj_iff.mp h).2 (k, j) (by simp)

end Each

/-- Every number is finite. -/
abbrev Finite (j : Json) : Prop :=
  Each (fun n => n.isFinite) (fun _ => True) j

/-- The fields of every object are in order. -/
abbrev Proper (j : Json) : Prop :=
  Each (fun _ => True) Fields.Ordered j

/-- Every number is finite and the fields of every object are in order. -/
abbrev Regular (j : Json) : Prop :=
  Each (fun n => n.isFinite) Fields.Ordered j

theorem Regular.finite {j : Json} (h : j.Regular) : j.Finite :=
  h.mono (fun _ hn => hn) fun _ _ => trivial

theorem Regular.proper {j : Json} (h : j.Regular) : j.Proper :=
  h.mono (fun _ _ => trivial) fun _ hq => hq

theorem Finite.regular {j : Json} (h : j.Finite) (hp : j.Proper) : j.Regular :=
  (h.and hp).mono (fun _ hn => hn.1) fun _ hq => hq.2

theorem proper_ofList {pairs : List (String × Json)} (h : ∀ f ∈ pairs, f.2.Proper) :
    (obj (Fields.ofList pairs)).Proper :=
  .obj (Fields.ordered_ofList _) fun f hf => h f (Fields.mem_ofList hf)

theorem proper_table {pairs : List (String × Json)} (h : ∀ f ∈ pairs, f.2.Proper) :
    (obj (Fields.table pairs)).Proper :=
  proper_ofList fun f hf => h f (List.mem_of_mem_filter hf)

theorem Regular.set {fs : Fields} {k : String} {v : Json} (h : (obj fs).Regular)
    (hv : v.Regular) : (obj (fs.set k v)).Regular := by
  obtain ⟨hq, hfs⟩ := Each.obj_iff.mp h
  refine .obj hq.set fun f hf => ?_
  rcases Fields.mem_set hf with rfl | ⟨hf, -⟩
  · exact hv
  · exact hfs f hf

/-! ## Maps -/

section Maps

variable (f : Number → Json)

mutual

/-- The document with every number replaced. -/
def mapNumbers : Json → Json
  | .null => .null
  | .bool b => .bool b
  | .num n => f n
  | .str s => .str s
  | .arr items => .arr (mapItems items)
  | .obj fs => .obj (mapFields fs)

def mapItems : List Json → List Json
  | [] => []
  | j :: items => mapNumbers j :: mapItems items

def mapFields : List (String × Json) → List (String × Json)
  | [] => []
  | (k, j) :: fs => (k, mapNumbers j) :: mapFields fs

end

variable {f}

theorem mapItems_eq (items : List Json) : mapItems f items = items.map (mapNumbers f) := by
  induction items with
  | nil => rfl
  | cons j items ih => rw [mapItems, ih, List.map_cons]

theorem mapFields_eq (fs : Fields) : mapFields f fs = fs.mapValues (mapNumbers f) := by
  induction fs with
  | nil => rfl
  | cons p fs ih => rw [mapFields, ih, Fields.mapValues, Fields.mapValues, List.map_cons]

@[simp] theorem mapNumbers_arr (items : List Json) :
    mapNumbers f (.arr items) = .arr (items.map (mapNumbers f)) := by
  rw [mapNumbers, mapItems_eq]

@[simp] theorem mapNumbers_obj (fs : Fields) :
    mapNumbers f (.obj fs) = .obj (fs.mapValues (mapNumbers f)) := by
  rw [mapNumbers, mapFields_eq]

theorem mapNumbers_congr {P : Number → Prop} {Q : Fields → Prop} {g : Number → Json} {j : Json}
    (hfg : ∀ n, P n → f n = g n) (h : Each P Q j) : mapNumbers f j = mapNumbers g j := by
  induction h with
  | null | bool | str => rfl
  | num h => exact hfg _ h
  | arr _ ih => rw [mapNumbers_arr, mapNumbers_arr, List.map_congr_left ih]
  | obj _ _ ih =>
    rw [mapNumbers_obj, mapNumbers_obj, Fields.mapValues, Fields.mapValues]
    exact congrArg Json.obj (List.map_congr_left fun p hp => by rw [ih p hp])

theorem mapNumbers_num (g : Number → Number) (j : Json) :
    mapNumbers f (mapNumbers (fun n => .num (g n)) j) = mapNumbers (f ∘ g) j := by
  induction j using ind with
  | null | bool | num | str => rfl
  | arr items ih =>
    rw [mapNumbers_arr, mapNumbers_arr, mapNumbers_arr, List.map_map]
    exact congrArg Json.arr (List.map_congr_left ih)
  | obj fs ih =>
    rw [mapNumbers_obj, mapNumbers_obj, mapNumbers_obj, Fields.mapValues, Fields.mapValues,
      Fields.mapValues, List.map_map]
    exact congrArg Json.obj (List.map_congr_left fun p hp =>
      congrArg (Prod.mk p.1) (ih p hp))

end Maps

/-- The document in which zeros have no sign. -/
def unsigned (j : Json) : Json :=
  mapNumbers (fun n => .num n.unsigned) j

/-- The document that the printed text spells. -/
def printed (j : Json) : Json :=
  mapNumbers (fun n => if n.isFinite then .num n.unsigned else .null) j

@[simp] theorem unsigned_null : unsigned .null = .null := rfl

@[simp] theorem unsigned_bool (b : Bool) : unsigned (.bool b) = .bool b := rfl

@[simp] theorem unsigned_num (n : Number) : unsigned (.num n) = .num n.unsigned := rfl

@[simp] theorem unsigned_str (s : String) : unsigned (.str s) = .str s := rfl

@[simp] theorem unsigned_arr (items : List Json) :
    unsigned (.arr items) = .arr (items.map unsigned) :=
  mapNumbers_arr items

@[simp] theorem unsigned_obj (fs : Fields) : unsigned (.obj fs) = .obj (fs.mapValues unsigned) :=
  mapNumbers_obj fs

@[simp] theorem unsigned_ofOption {α : Type} (f : α → Json) (x : Option α) :
    (ofOption f x).unsigned = ofOption (fun a => (f a).unsigned) x := by
  cases x <;> rfl

@[simp] theorem printed_bool (b : Bool) : printed (.bool b) = .bool b := rfl

@[simp] theorem printed_str (s : String) : printed (.str s) = .str s := rfl

@[simp] theorem printed_arr (items : List Json) :
    printed (.arr items) = .arr (items.map printed) :=
  mapNumbers_arr items

@[simp] theorem printed_obj (fs : Fields) : printed (.obj fs) = .obj (fs.mapValues printed) :=
  mapNumbers_obj fs

@[simp] theorem printed_ofOption_str (x : Option String) :
    (ofOption .str x).printed = ofOption .str x := by
  cases x <;> rfl

/-- A number that is not finite is printed as none. -/
@[simp] theorem printed_ofOption_num (x : Option Number) :
    (ofOption .num x).printed = ofOption .num ((x.filter Number.isFinite).map Number.unsigned) := by
  cases x with
  | none => rfl
  | some n =>
    have hn : printed (.num n) = if n.isFinite then .num n.unsigned else .null := rfl
    by_cases h : n.isFinite <;> simp [ofOption, Option.filter, hn, h]

@[simp] theorem unsigned_unsigned (j : Json) : j.unsigned.unsigned = j.unsigned := by
  simp [unsigned, mapNumbers_num, Function.comp_def]

@[simp] theorem unsigned_comp_unsigned : unsigned ∘ unsigned = unsigned :=
  funext unsigned_unsigned

@[simp] theorem unsigned_eq_bool {j : Json} {b : Bool} : j.unsigned = .bool b ↔ j = .bool b := by
  cases j <;> simp

theorem printed_eq_unsigned {j : Json} (h : j.Finite) : j.printed = j.unsigned :=
  mapNumbers_congr (fun _ hn => if_pos hn) h

end StoryFlow.Json
