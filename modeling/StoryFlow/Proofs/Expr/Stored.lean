import StoryFlow.Expr.Compile
import StoryFlow.Proofs.Json.Grammar

/-! # Stored conditions

A stored condition is an object with a list of rules or of blocks, or a text that denotes one. Its
complete rules and blocks are read in their order, at every depth, and the others are left out. A
text of any other form is all that cannot be compiled.
-/

namespace StoryFlow

/-- The members that are `P`, in their order, each with what `R` relates it to. -/
inductive Kept {α β : Type} (P : α → Prop) (R : α → β → Prop) : List α → List β → Prop where

  | nil : Kept P R [] []

  | keep {a : α} {b : β} {as : List α} {bs : List β} : P a → R a b → Kept P R as bs →
      Kept P R (a :: as) (b :: bs)

  | drop {a : α} {as : List α} {bs : List β} : ¬ P a → Kept P R as bs → Kept P R (a :: as) bs

/-- A partial map that is defined on what is `P` and gives what `R` says keeps these members. -/
theorem filterMap_eq_iff_kept {α β : Type} {P : α → Prop} {R : α → β → Prop} {f : α → Option β}
    {as : List α} {bs : List β} (hP : ∀ a ∈ as, (f a).isSome ↔ P a)
    (hR : ∀ a ∈ as, ∀ b, f a = some b ↔ R a b) : as.filterMap f = bs ↔ Kept P R as bs := by
  induction as generalizing bs with
  | nil => exact ⟨fun h => h ▸ .nil, fun | .nil => rfl⟩
  | cons a as ih =>
    have hPa := hP a List.mem_cons_self
    have hRa := hR a List.mem_cons_self
    have ih {bs} := @ih bs (fun x hx => hP x (.tail a hx)) fun x hx => hR x (.tail a hx)
    cases hf : f a with
    | none =>
      have hnot : ¬ P a := fun h => by simpa [hf] using hPa.mpr h
      rw [List.filterMap_cons_none hf, ih]
      refine ⟨.drop hnot, fun h => ?_⟩
      cases h with
      | keep hp => exact absurd hp hnot
      | drop _ h => exact h
    | some b =>
      have hp : P a := hPa.mp (by rw [hf]; rfl)
      rw [List.filterMap_cons_some hf]
      constructor
      · rintro rfl
        exact .keep hp ((hRa b).mp hf) (ih.mp rfl)
      · intro h
        cases h with
        | keep _ hr h =>
          have heq := (hRa _).mpr hr
          rw [ih.mpr h, Option.some.inj (hf.symm.trans heq)]
        | drop hn => exact absurd hp hn

namespace Rule

/-- The id that a stored rule may have. -/
inductive IsId : Option Json → Option String → Prop where

  | missing : IsId none none

  | null : IsId (some .null) none

  | text (s : String) : IsId (some (.str s)) (some s)

  | number (n : Number) : IsId (some (.num n)) (some n.text)

/-- A complete stored rule, and what it says. -/
structure Means (fs : Fields) (r : Rule) : Prop where
  id : IsId (fs.get? "id") r.id
  sheet : fs.get? "sheet" = some (.str r.sheet) ∧ r.sheet ≠ ""
  name : fs.get? "variable" = some (.str r.name) ∧ r.name ≠ ""
  operator : fs.get? "operator" = some (.str r.operator) ∧ r.operator ≠ ""
  value : fs.get? "value" = r.value

def Stored (j : Json) (r : Rule) : Prop :=
  ∃ fs : Fields, j = .obj fs ∧ Means fs r

def Complete (j : Json) : Prop :=
  ∃ r, Stored j r

end Rule

namespace Condition

/-- The logic that a stored condition or block may name. -/
inductive IsLogic : Option Json → Logic → Prop where

  | missing : IsLogic none .all

  | null : IsLogic (some .null) .all

  | any : IsLogic (some (.str "any")) .any

  | other {s : String} : s ≠ "any" → IsLogic (some (.str s)) .all

/-- The object joins the members of a list by a logic. -/
def Lists (fs : Fields) (key : String) (logic : Logic) (items : List Json) : Prop :=
  IsLogic (fs.get? "logic") logic ∧ fs.get? key = some (.arr items)

/-- An object with the shape of a condition. -/
inductive HasShape : Json → Prop where

  | rules {fs : Fields} {logic : Logic} {items : List Json} : Lists fs "rules" logic items →
      HasShape (.obj fs)

  | blocks {fs : Fields} {logic : Logic} {items : List Json} : Lists fs "blocks" logic items →
      HasShape (.obj fs)

/-- An object with the shape of a block. -/
inductive IsBlock : Json → Prop where

  | rules {fs : Fields} {logic : Logic} {items : List Json} :
      fs.get? "type" = some (.str "block") → Lists fs "rules" logic items → IsBlock (.obj fs)

  | group {fs : Fields} {logic : Logic} {items : List Json} :
      fs.get? "type" = some (.str "group") → Lists fs "blocks" logic items → IsBlock (.obj fs)

/-- What a block says: its complete rules, or what its blocks say. -/
inductive Block : Json → Condition → Prop where

  | rules {fs : Fields} {logic : Logic} {items : List Json} {rs : List Rule} :
      fs.get? "type" = some (.str "block") → Lists fs "rules" logic items →
      Kept Rule.Complete Rule.Stored items rs → Block (.obj fs) (.rules logic rs)

  | group {fs : Fields} {logic : Logic} {items : List Json} {cs : List Condition} :
      fs.get? "type" = some (.str "group") → Lists fs "blocks" logic items →
      Kept IsBlock Block items cs → Block (.obj fs) (.groups logic cs)

/-- What a stored condition says. A list of rules comes before one of blocks. -/
inductive Means : Json → Condition → Prop where

  | rules {fs : Fields} {logic : Logic} {items : List Json} {rs : List Rule} :
      Lists fs "rules" logic items → Kept Rule.Complete Rule.Stored items rs →
      Means (.obj fs) (.rules logic rs)

  | groups {fs : Fields} {logic : Logic} {items : List Json} {cs : List Condition} :
      (∀ l rules, ¬ Lists fs "rules" l rules) → Lists fs "blocks" logic items →
      Kept IsBlock Block items cs → Means (.obj fs) (.groups logic cs)

/-- The second value is the first without one rule or block that is not complete. -/
inductive Drops : Json → Json → Prop where

  | rule {fs : Fields} {before after : List Json} {j : Json} :
      fs.get? "rules" = some (.arr (before ++ j :: after)) → ¬ Rule.Complete j →
      Drops (.obj fs) (.obj (fs.set "rules" (.arr (before ++ after))))

  | block {fs : Fields} {before after : List Json} {j : Json} :
      fs.get? "blocks" = some (.arr (before ++ j :: after)) → ¬ IsBlock j →
      Drops (.obj fs) (.obj (fs.set "blocks" (.arr (before ++ after))))

  | inside {fs : Fields} {before after : List Json} {j j' : Json} :
      fs.get? "blocks" = some (.arr (before ++ j :: after)) → Drops j j' →
      Drops (.obj fs) (.obj (fs.set "blocks" (.arr (before ++ j' :: after))))

end Condition

/-! ## Rules -/

theorem Fields.filled_eq_some_iff {fs : Fields} {key s : String} :
    fs.filled key = some s ↔ fs.get? key = some (.str s) ∧ s ≠ "" := by
  rw [filled]
  split
  · rename_i t h
    rw [h, Option.ite_none_left_eq_some, Option.some_inj, Option.some_inj, Json.str.injEq]
    constructor
    · rintro ⟨hne, rfl⟩
      exact ⟨rfl, hne⟩
    · rintro ⟨rfl, hne⟩
      exact ⟨hne, rfl⟩
  · rename_i h
    exact ⟨nofun, fun hs => absurd hs.1 (h s)⟩

theorem Fields.optionalId_eq_some_iff {fs : Fields} {key : String} {id : Option String} :
    fs.optionalId key = some id ↔ Rule.IsId (fs.get? key) id := by
  rw [optionalId]
  generalize fs.get? key = j
  constructor
  · intro h
    split at h <;> cases h
    · exact .missing
    · exact .null
    · exact .text _
    · exact .number _
  · rintro (_ | _ | _ | _) <;> rfl

namespace Rule

variable {j : Json} {r : Rule}

theorem ofJson?_eq_some_iff : ofJson? j = some r ↔ Stored j r := by
  cases j with
  | obj fs =>
    simp only [ofJson?, Option.bind_eq_bind, Option.bind_eq_some_iff, Option.some_inj,
      Fields.optionalId_eq_some_iff, Fields.filled_eq_some_iff]
    constructor
    · rintro ⟨id, hid, sheet, hsheet, name, hname, operator, hop, rfl⟩
      exact ⟨fs, rfl, hid, hsheet, hname, hop, rfl⟩
    · rintro ⟨_, hj, h⟩
      obtain rfl := Json.obj.inj hj
      exact ⟨_, h.id, _, h.sheet, _, h.name, _, h.operator, by rw [h.value]⟩
  | _ => exact ⟨nofun, fun ⟨_, hj, _⟩ => nomatch hj⟩

theorem ofJson?_isSome : (ofJson? j).isSome ↔ Complete j := by
  simp only [Option.isSome_iff_exists, ofJson?_eq_some_iff, Complete]

theorem filterMap_ofJson? {items : List Json} {rs : List Rule} :
    items.filterMap ofJson? = rs ↔ Kept Complete Stored items rs :=
  filterMap_eq_iff_kept (fun _ _ => ofJson?_isSome) fun _ _ _ => ofJson?_eq_some_iff

end Rule

/-! ## Conditions -/

namespace Condition

variable {fs : Fields} {j v v' : Json} {c : Condition} {key : String} {logic : Logic}
  {items items' : List Json}

/-- The logic of an object and the members of its list. -/
def parts? (fs : Fields) (key : String) : Option (Logic × List Json) := do
  let logic ← Fields.optionalText fs "logic"
  let items ← (Fields.get? fs key).bind Json.items?
  some (logicOf logic, items)

theorem isLogic_iff :
    (Fields.optionalText fs "logic").map logicOf = some logic ↔
      IsLogic (fs.get? "logic") logic := by
  rw [Fields.optionalText]
  generalize fs.get? "logic" = j
  constructor
  · intro h
    split at h <;> cases h
    · exact .missing
    · exact .null
    · rename_i s
      by_cases hany : s = "any"
      · rw [hany]
        exact .any
      · simpa [logicOf, hany] using IsLogic.other hany
  · rintro (_ | _ | _ | hne)
    · rfl
    · rfl
    · rfl
    · simp [logicOf, hne]

theorem parts?_eq_some_iff : parts? fs key = some (logic, items) ↔ Lists fs key logic items := by
  have hitems (v : Json) : v.items? = some items ↔ v = .arr items := by
    cases v <;> simp [Json.items?]
  rw [Lists, ← isLogic_iff]
  simp only [parts?, Option.bind_eq_bind, Option.bind_eq_some_iff, Option.map_eq_some_iff,
    Option.some_inj, Prod.mk.injEq]
  constructor
  · rintro ⟨l, hl, xs, ⟨w, hw, hxs⟩, hlogic, rfl⟩
    exact ⟨⟨l, hl, hlogic⟩, by rw [hw, (hitems w).mp hxs]⟩
  · rintro ⟨⟨l, hl, hlogic⟩, hw⟩
    exact ⟨l, hl, items, ⟨_, hw, rfl⟩, hlogic, rfl⟩

theorem complete_eq (items : List Json) : complete items = items.filterMap ofBlock? := by
  induction items with
  | nil => rfl
  | cons j items ih =>
    rw [complete]
    cases h : ofBlock? j with
    | none => rw [ih, List.filterMap_cons_none h]
    | some c => rw [ih, List.filterMap_cons_some h]

theorem blocksIn?_eq (fs : Fields) :
    blocksIn? fs = ((fs.get? "blocks").bind Json.items?).map (·.filterMap ofBlock?) := by
  induction fs with
  | nil => rfl
  | cons f fs ih =>
    obtain ⟨k, v⟩ := f
    rw [blocksIn?, Fields.get?_cons, ih]
    by_cases hk : k = "blocks"
    · rw [if_pos hk, if_pos hk.symm]
      cases v <;> simp [blocks?, Json.items?, complete_eq]
    · rw [if_neg hk, if_neg (Ne.symm hk)]

def ofRules (p : Logic × List Json) : Condition :=
  rules p.1 (p.2.filterMap Rule.ofJson?)

def ofGroups (p : Logic × List Json) : Condition :=
  groups p.1 (p.2.filterMap ofBlock?)

theorem rulesOf?_eq (fs : Fields) : rulesOf? fs = (parts? fs "rules").map ofRules := by
  simp [rulesOf?, parts?, ofRules, Option.map_bind, Function.comp_def, Option.bind_assoc]

theorem groupsOf?_eq (fs : Fields) :
    ((Fields.optionalText fs "logic").bind fun logic =>
      (blocksIn? fs).map fun blocks => groups (logicOf logic) blocks) =
      (parts? fs "blocks").map ofGroups := by
  simp only [blocksIn?_eq, parts?, ofGroups, Option.bind_eq_bind, Option.map_eq_bind,
    Function.comp_def, Option.bind_assoc, Option.bind_some]

theorem ofBlock?_obj (fs : Fields) :
    ofBlock? (.obj fs) =
      if fs.get? "type" = some (.str "block") then (parts? fs "rules").map ofRules
      else if fs.get? "type" = some (.str "group") then (parts? fs "blocks").map ofGroups
      else none := by
  rw [ofBlock?, rulesOf?_eq, groupsOf?_eq]

theorem ofJson?_obj (fs : Fields) :
    ofJson? (.obj fs) =
      ((parts? fs "rules").map ofRules).or ((parts? fs "blocks").map ofGroups) := by
  rw [ofJson?, rulesOf?_eq, ← groupsOf?_eq, Option.orElse_eq_orElse, Option.orElse_eq_or]
  simp only [Option.bind_eq_bind, Option.map_eq_bind, Function.comp_def]

theorem ofBlock?_isSome : (ofBlock? j).isSome ↔ IsBlock j := by
  constructor
  · intro h
    cases j with
    | obj fs =>
      rw [ofBlock?_obj] at h
      split at h
      · rename_i htype
        rw [Option.isSome_map, Option.isSome_iff_exists] at h
        exact .rules htype (parts?_eq_some_iff.mp h.choose_spec)
      · split at h
        · rename_i htype
          rw [Option.isSome_map, Option.isSome_iff_exists] at h
          exact .group htype (parts?_eq_some_iff.mp h.choose_spec)
        · exact nomatch h
    | _ => exact nomatch h
  · intro h
    cases h with
    | rules htype hlist =>
      rw [ofBlock?_obj, if_pos htype, parts?_eq_some_iff.mpr hlist]
      rfl
    | group htype hlist =>
      rw [ofBlock?_obj, if_neg (by simp [htype]), if_pos htype, parts?_eq_some_iff.mpr hlist]
      rfl

/-- A block says what its members say. -/
theorem ofBlock?_obj_eq_some_iff
    (hblocks : ∀ {logic items}, Lists fs "blocks" logic items → ∀ x ∈ items, ∀ c,
      ofBlock? x = some c ↔ Block x c) : ofBlock? (.obj fs) = some c ↔ Block (.obj fs) c := by
  have hkept {logic items} (hlist : Lists fs "blocks" logic items) {cs : List Condition} :
      items.filterMap ofBlock? = cs ↔ Kept IsBlock Block items cs :=
    filterMap_eq_iff_kept (fun _ _ => ofBlock?_isSome) (hblocks hlist)
  constructor
  · intro h
    rw [ofBlock?_obj] at h
    split at h
    · rename_i htype
      obtain ⟨⟨logic, items⟩, hparts, rfl⟩ := Option.map_eq_some_iff.mp h
      exact .rules htype (parts?_eq_some_iff.mp hparts) (Rule.filterMap_ofJson?.mp rfl)
    · split at h
      · rename_i htype
        obtain ⟨⟨logic, items⟩, hparts, rfl⟩ := Option.map_eq_some_iff.mp h
        have hlist := parts?_eq_some_iff.mp hparts
        exact .group htype hlist ((hkept hlist).mp rfl)
      · exact nomatch h
  · intro h
    cases h with
    | rules htype hlist hk =>
      rw [ofBlock?_obj, if_pos htype, parts?_eq_some_iff.mpr hlist, Option.map_some, ofRules,
        Rule.filterMap_ofJson?.mpr hk]
    | group htype hlist hk =>
      rw [ofBlock?_obj, if_neg (by simp [htype]), if_pos htype, parts?_eq_some_iff.mpr hlist,
        Option.map_some, ofGroups, (hkept hlist).mpr hk]

theorem ofBlock?_eq_some_iff : ofBlock? j = some c ↔ Block j c := by
  -- The blocks of an object are the members of an array in it: both levels are carried.
  suffices h : (∀ c, ofBlock? j = some c ↔ Block j c) ∧
      ∀ items, j = .arr items → ∀ x ∈ items, ∀ c, ofBlock? x = some c ↔ Block x c from h.1 c
  induction j using Json.ind with
  | null | bool | num | str => exact ⟨fun _ => ⟨nofun, nofun⟩, nofun⟩
  | arr items ih =>
    refine ⟨fun _ => ⟨nofun, nofun⟩, fun items' hitems x hx => ?_⟩
    obtain rfl := Json.arr.inj hitems
    exact (ih x hx).1
  | obj fs ih =>
    refine ⟨fun c => ofBlock?_obj_eq_some_iff fun hlist => ?_, nofun⟩
    obtain ⟨before, after, rfl, -⟩ := List.lookup_eq_some_iff.mp hlist.2
    exact (ih ("blocks", _) (by simp)).2 _ rfl

theorem filterMap_ofBlock? {cs : List Condition} :
    items.filterMap ofBlock? = cs ↔ Kept IsBlock Block items cs :=
  filterMap_eq_iff_kept (fun _ _ => ofBlock?_isSome) fun _ _ _ => ofBlock?_eq_some_iff

theorem parts?_eq_none_iff : parts? fs key = none ↔ ∀ l items, ¬ Lists fs key l items := by
  simp only [Option.eq_none_iff_forall_ne_some, ne_eq, Prod.forall, parts?_eq_some_iff]

theorem ofJson?_eq_some_iff : ofJson? v = some c ↔ Means v c := by
  constructor
  · intro h
    cases v with
    | obj fs =>
      rw [ofJson?_obj, Option.or_eq_some_iff, Option.map_eq_none_iff, Option.map_eq_some_iff,
        Option.map_eq_some_iff] at h
      obtain ⟨⟨logic, items⟩, hparts, rfl⟩ | ⟨hnone, ⟨logic, items⟩, hparts, rfl⟩ := h
      · exact .rules (parts?_eq_some_iff.mp hparts) (Rule.filterMap_ofJson?.mp rfl)
      · exact .groups (parts?_eq_none_iff.mp hnone) (parts?_eq_some_iff.mp hparts)
          (filterMap_ofBlock?.mp rfl)
    | _ => exact nomatch h
  · intro h
    cases h with
    | rules hlist hk =>
      rw [ofJson?_obj, parts?_eq_some_iff.mpr hlist, Option.map_some, ofRules,
        Rule.filterMap_ofJson?.mpr hk, Option.some_or]
    | groups hnone hlist hk =>
      rw [ofJson?_obj, parts?_eq_none_iff.mpr hnone, parts?_eq_some_iff.mpr hlist,
        Option.map_none, Option.none_or, Option.map_some, ofGroups, filterMap_ofBlock?.mpr hk]

theorem ofJson?_isSome : (ofJson? v).isSome ↔ HasShape v := by
  constructor
  · intro h
    cases v with
    | obj fs =>
      rw [ofJson?_obj, Option.isSome_or, Bool.or_eq_true, Option.isSome_map, Option.isSome_map,
        Option.isSome_iff_exists, Option.isSome_iff_exists] at h
      obtain ⟨p, hp⟩ | ⟨p, hp⟩ := h
      · exact .rules (parts?_eq_some_iff.mp hp)
      · exact .blocks (parts?_eq_some_iff.mp hp)
    | _ => exact nomatch h
  · intro h
    cases h with
    | rules hlist | blocks hlist => simp [ofJson?_obj, parts?_eq_some_iff.mpr hlist]

/-! ## What is not complete -/

theorem filterMap_drop {α β : Type} {f : α → Option β} {before after : List α} {a : α}
    (h : f a = none) : (before ++ a :: after).filterMap f = (before ++ after).filterMap f := by
  rw [List.filterMap_append, List.filterMap_cons_none h, List.filterMap_append]

theorem parts?_set (F : Logic × List Json → Condition) (items' : List Json)
    (hkey : key ≠ "logic") (h : fs.get? key = some (.arr items))
    (hF : ∀ l, F (l, items') = F (l, items)) :
    (parts? (fs.set key (.arr items')) key).map F = (parts? fs key).map F := by
  simp [parts?, Fields.optionalText, Fields.get?_set_of_ne hkey.symm, Fields.get?_set_self, h,
    Json.items?, Option.map_bind, hF]

theorem parts?_set_of_ne {other : String} (hkey : key ≠ "logic") (hother : other ≠ key) :
    parts? (fs.set key v) other = parts? fs other := by
  simp only [parts?, Fields.optionalText, Fields.get?_set_of_ne hkey.symm,
    Fields.get?_set_of_ne hother]

theorem read_set_rules (h : fs.get? "rules" = some (.arr items))
    (heq : items'.filterMap Rule.ofJson? = items.filterMap Rule.ofJson?) :
    ofJson? (.obj (fs.set "rules" (.arr items'))) = ofJson? (.obj fs) ∧
      ofBlock? (.obj (fs.set "rules" (.arr items'))) = ofBlock? (.obj fs) := by
  have hrules := parts?_set ofRules items' (by decide) h fun l => by simp only [ofRules, heq]
  simp only [ofJson?_obj, ofBlock?_obj, hrules, parts?_set_of_ne, Fields.get?_set_of_ne, ne_eq,
    String.reduceEq, not_false_eq_true, and_self]

theorem read_set_blocks (h : fs.get? "blocks" = some (.arr items))
    (heq : items'.filterMap ofBlock? = items.filterMap ofBlock?) :
    ofJson? (.obj (fs.set "blocks" (.arr items'))) = ofJson? (.obj fs) ∧
      ofBlock? (.obj (fs.set "blocks" (.arr items'))) = ofBlock? (.obj fs) := by
  have hblocks := parts?_set ofGroups items' (by decide) h fun l => by simp only [ofGroups, heq]
  simp only [ofJson?_obj, ofBlock?_obj, hblocks, parts?_set_of_ne, Fields.get?_set_of_ne, ne_eq,
    String.reduceEq, not_false_eq_true, and_self]

theorem Drops.read_eq (h : Drops v v') : ofJson? v' = ofJson? v ∧ ofBlock? v' = ofBlock? v := by
  induction h with
  | rule hget hj =>
    rw [← Rule.ofJson?_isSome, Option.not_isSome_iff_eq_none] at hj
    exact read_set_rules hget (filterMap_drop hj).symm
  | block hget hj =>
    rw [← ofBlock?_isSome, Option.not_isSome_iff_eq_none] at hj
    exact read_set_blocks hget (filterMap_drop hj).symm
  | inside hget _ ih =>
    refine read_set_blocks hget ?_
    simp only [List.filterMap_append, List.filterMap_cons, ih.2]

/-! ## Reading and compiling -/

section Read

variable {s : String} {stored : Option Json} {e : ExprError} {d : Dialect}

theorem hasShape_iff_means : HasShape v ↔ ∃ c, Means v c := by
  simp only [← ofJson?_isSome, Option.isSome_iff_exists, ofJson?_eq_some_iff]

theorem read_of_means (h : Means v c) : read (some v) = .ok (some c) := by
  have hc := ofJson?_eq_some_iff.mpr h
  cases h <;> rw [read, hc] <;> exact nofun

theorem read_text (hne : s ≠ "") :
    read (some (.str s)) =
      ((Json.read? s).bind ofJson?).elim (.error (.legacyCondition s)) (.ok ∘ some) := by
  rw [read, if_neg hne]
  cases (Json.read? s).bind ofJson? <;> rfl

theorem read_text_of_means (hs : Json.Denotes s v) (h : Means v c) :
    read (some (.str s)) = .ok (some c) := by
  have hread := Json.read?_eq_some_iff.mpr hs
  have hne : s ≠ "" := by
    rintro rfl
    exact nomatch hread
  rw [read_text hne, hread, Option.bind_some, ofJson?_eq_some_iff.mpr h]
  rfl

theorem bind_ofJson?_eq_none_iff :
    (Json.read? s).bind ofJson? = none ↔ ∀ v, Json.Denotes s v → ¬ HasShape v := by
  simp only [Option.bind_eq_none_iff, ← Json.read?_eq_some_iff, ← ofJson?_isSome,
    Option.not_isSome_iff_eq_none]

/-- Only a text that denotes no condition cannot be read. -/
theorem read_eq_error_iff :
    read stored = .error e ↔ ∃ s, stored = some (.str s) ∧ s ≠ "" ∧
      (∀ v, Json.Denotes s v → ¬ HasShape v) ∧ e = .legacyCondition s := by
  constructor
  · intro h
    cases stored with
    | none => exact nomatch h
    | some j =>
      cases j with
      | str s =>
        have hne : s ≠ "" := by
          rintro rfl
          exact nomatch h
        rw [read_text hne] at h
        cases hc : (Json.read? s).bind ofJson? with
        | none =>
          rw [hc] at h
          exact ⟨s, rfl, hne, bind_ofJson?_eq_none_iff.mp hc, (Except.error.inj h).symm⟩
        | some c =>
          rw [hc] at h
          exact nomatch h
      | null | bool | num | arr | obj => exact nomatch h
  · rintro ⟨s, rfl, hne, hnone, rfl⟩
    rw [read_text hne, bind_ofJson?_eq_none_iff.mpr hnone]
    rfl

theorem compileStored_of_read (h : read stored = .ok (some c)) :
    compileStored d stored = .ok (c.compile d) := by
  rw [compileStored, h]
  rfl

theorem compileStored_eq_error_iff :
    compileStored d stored = .error e ↔ read stored = .error e := by
  rw [compileStored]
  cases read stored with
  | error e' =>
    change Except.error e' = Except.error e ↔ _
    rw [Except.error.injEq, Except.error.injEq]
  | ok c => cases c <;> exact ⟨nofun, nofun⟩

theorem Drops.hasShape_iff (h : Drops v v') : HasShape v' ↔ HasShape v := by
  rw [← ofJson?_isSome, ← ofJson?_isSome, h.read_eq.1]

theorem Drops.compileStored_eq (h : Drops v v') :
    compileStored d (some v') = compileStored d (some v) := by
  have hread : read (some v') = read (some v) := by
    have heq := h.read_eq.1
    cases h <;> rw [read, read, heq] <;> exact nofun
  rw [compileStored, compileStored, hread]

end Read

/-- A value with the shape of a condition and every text that denotes it compile to the same, which
is what its complete rules and blocks say; leaving out one that is not complete, at any depth,
changes nothing. What cannot be compiled is a text, not empty, that denotes no such value. -/
theorem stored_compiles (d : Dialect) :
    (∀ s v, Json.Denotes s v → HasShape v →
      compileStored d (some (.str s)) = compileStored d (some v)) ∧
    (∀ v, HasShape v ↔ ∃ c, Means v c) ∧
    (∀ v c, Means v c → compileStored d (some v) = .ok (c.compile d)) ∧
    (∀ v v', Drops v v' → (HasShape v' ↔ HasShape v) ∧
      compileStored d (some v') = compileStored d (some v)) ∧
    ∀ stored e, compileStored d stored = .error e ↔ ∃ s, stored = some (.str s) ∧ s ≠ "" ∧
      (∀ v, Json.Denotes s v → ¬ HasShape v) ∧ e = .legacyCondition s ∧
      e.code = "LEGACY_CONDITION" := by
  refine ⟨fun s v hs hv => ?_, fun _ => hasShape_iff_means, fun v c h => ?_, fun v v' h => ?_,
    fun stored e => ?_⟩
  · obtain ⟨c, hc⟩ := hasShape_iff_means.mp hv
    rw [compileStored_of_read (read_text_of_means hs hc), compileStored_of_read (read_of_means hc)]
  · exact compileStored_of_read (read_of_means h)
  · exact ⟨h.hasShape_iff, h.compileStored_eq⟩
  · rw [compileStored_eq_error_iff, read_eq_error_iff]
    constructor
    · rintro ⟨s, hs, hne, hnone, rfl⟩
      exact ⟨s, hs, hne, hnone, rfl, rfl⟩
    · rintro ⟨s, hs, hne, hnone, he, -⟩
      exact ⟨s, hs, hne, hnone, he⟩

/-- A stored condition with one complete rule in its one block. -/
def crossing : Json :=
  .obj [("blocks", .arr [.obj [("type", .str "block"), ("rules", .arr [
    .obj [("sheet", .str "mc"), ("variable", .str "coins"), ("operator", .str "greater_than"),
      ("value", .ofNat 2)]])]])]

/-- The same condition with a second rule, which names no variable. -/
def crossingDraft : Json :=
  .obj [("blocks", .arr [.obj [("type", .str "block"), ("rules", .arr [
    .obj [("sheet", .str "mc"), ("variable", .str "coins"), ("operator", .str "greater_than"),
      ("value", .ofNat 2)],
    .obj [("sheet", .str "mc")]])]])]

def crossingText : String :=
  "\x7b \"blocks\": [\x7b\"type\": \"block\", \"rules\": [\x7b\"sheet\": \"mc\", " ++
    "\"variable\": \"coins\", \"operator\": \"greater_than\", \"value\": 2.0\x7d]\x7d]\x7d"

theorem crossing_compiles :
    Json.Denotes crossingText crossing ∧ HasShape crossing ∧ Drops crossingDraft crossing ∧
      compileStored .ink (some (.str crossingText)) = compileStored .ink (some crossingDraft) ∧
      (∃ c, Means crossing c ∧ compileStored .ink (some crossing) = .ok (c.compile .ink)) ∧
      compileStored .ink (some (.str "coins > 2")) = .error (.legacyCondition "coins > 2") := by
  have hdenotes : Json.Denotes crossingText crossing :=
    Json.read?_eq_some_iff.mp (by decide +kernel)
  have hshape : HasShape crossing := .blocks ⟨.missing, rfl⟩
  have hrule : ¬ Rule.Complete (.obj [("sheet", .str "mc")]) := by
    rw [← Rule.ofJson?_isSome]
    decide
  have hdrops : Drops crossingDraft crossing :=
    @Drops.inside _ [] [] _ _ rfl (@Drops.rule _ [_] [] _ rfl hrule)
  obtain ⟨htext, hmeans, hcompile, hdrop, herror⟩ := stored_compiles .ink
  obtain ⟨c, hc⟩ := (hmeans crossing).mp hshape
  refine ⟨hdenotes, hshape, hdrops, ?_, ⟨c, hc, hcompile crossing c hc⟩, ?_⟩
  · rw [htext crossingText crossing hdenotes hshape, (hdrop crossingDraft crossing hdrops).2]
  · have hnone : Json.read? "coins > 2" = none := by decide +kernel
    refine (herror _ _).mpr ⟨_, rfl, by decide, fun v hv => ?_, rfl, rfl⟩
    exact nomatch hnone.symm.trans (Json.read?_eq_some_iff.mpr hv)

end Condition

end StoryFlow
