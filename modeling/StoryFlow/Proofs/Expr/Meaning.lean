import Mathlib.Data.List.Basic
import StoryFlow.Proofs.Expr.Operand

/-! # The meaning of compiled conditions

A condition is compiled to the text of a formula, which the text is read back as. Its rules are
those that the dialect keeps, and under every valuation of them it has the value of the condition
without the other rules and without groups that are empty.
-/

namespace StoryFlow

/-- The value that a logic gives to several values, if there are any. -/
def Logic.value? (logic : Logic) : List Bool → Option Bool
  | [] => none
  | bs => some (logic.value bs)

namespace Condition

def logic : Condition → Logic
  | rules logic _ => logic
  | groups logic _ => logic

/-- The rules that the dialect has an expression for, from left to right. -/
def kept (d : Dialect) (c : Condition) : List Rule :=
  c.flat.filter (Rule.isKept d)

mutual

/-- The value of a condition without the rules that are dropped and without empty groups. -/
def value? (d : Dialect) (v : Rule → Bool) : Condition → Option Bool
  | rules logic rs => logic.value? ((rs.filter (Rule.isKept d)).map v)
  | groups logic cs => logic.value? (values d v cs)

def values (d : Dialect) (v : Rule → Bool) : List Condition → List Bool
  | [] => []
  | c :: cs => (value? d v c).toList ++ values d v cs

end

mutual

def parts (d : Dialect) : Condition → List Formula
  | rules _ rs => (rs.filter (Rule.isKept d)).map .rule
  | groups _ cs => partsOf d cs

def partsOf (d : Dialect) : List Condition → List Formula
  | [] => []
  | c :: cs => (groupJoined d c.logic (parts d c)).toList ++ partsOf d cs

end

theorem induct {P : Condition → Prop} (hr : ∀ logic rs, P (rules logic rs))
    (hg : ∀ logic cs, (∀ c ∈ cs, P c) → P (groups logic cs)) : ∀ c, P c
  | rules logic rs => hr logic rs
  | groups logic cs => hg logic cs fun c _ => induct hr hg c

section Parts

variable {d : Dialect} {logic : Logic} {es : List Formula} {v : Rule → Bool}

theorem groupJoined_operand (hes : ∀ e ∈ es, Operand d e) :
    ∀ x ∈ groupJoined d logic es, Operand d x := by
  intro x hx
  rcases groupJoined_cases d logic es with ⟨-, hg⟩ | ⟨e, rfl, hg⟩ | ⟨y, hy, hg, -⟩
  · simp [hg] at hx
  · obtain rfl := Option.some.inj (hg.symm.trans hx)
    exact hes e List.mem_cons_self
  · obtain rfl := Option.some.inj (hg.symm.trans hx)
    exact (whole_joined hes hy).paren

theorem groupJoined_rules :
    (groupJoined d logic es).toList.flatMap Formula.rules = es.flatMap Formula.rules := by
  rcases groupJoined_cases d logic es with ⟨rfl, hg⟩ | ⟨e, rfl, hg⟩ | ⟨y, hy, hg, -⟩
  · simp [hg]
  · simp [hg]
  · simp [hg, rules_joined hy]

theorem groupJoined_eval :
    (groupJoined d logic es).map (Formula.eval v) = logic.value? (es.map (Formula.eval v)) := by
  rcases groupJoined_cases d logic es with ⟨rfl, hg⟩ | ⟨e, rfl, hg⟩ | ⟨y, hy, hg, hl⟩
  · simp [hg, Logic.value?]
  · cases logic <;> simp [hg, Logic.value?, Logic.value]
  · cases es with
    | nil => simp at hl
    | cons e es => simp [hg, Formula.eval, eval_joined v hy, Logic.value?]

theorem groupJoined_text (hes : ∀ e ∈ es, Operand d e) :
    (groupJoined d logic es).map (Formula.text d) =
      grouped d logic (es.map (Formula.text d)) := by
  rcases groupJoined_cases d logic es with ⟨rfl, hg⟩ | ⟨e, rfl, hg⟩ | ⟨y, hy, hg, hl⟩
  · simp [hg, grouped]
  · simp [hg, grouped]
  · match es with
    | a :: b :: es => simpa [hg, grouped] using congrArg parenthesize (text_joined hes hy)

theorem flatAll_eq (cs : List Condition) : flatAll cs = cs.flatMap flat := by
  induction cs with
  | nil => rfl
  | cons c cs ih => rw [flatAll, ih, List.flatMap_cons]

theorem values_eq (cs : List Condition) :
    values d v cs = cs.flatMap fun c => (value? d v c).toList := by
  induction cs with
  | nil => rfl
  | cons c cs ih => rw [values, ih, List.flatMap_cons]

theorem partsOf_eq (cs : List Condition) :
    partsOf d cs = cs.flatMap fun c => (groupJoined d c.logic (c.parts d)).toList := by
  induction cs with
  | nil => rfl
  | cons c cs ih => rw [partsOf, ih, List.flatMap_cons]

theorem parts_operand (c : Condition) : ∀ e ∈ c.parts d, Operand d e := by
  induction c using Condition.induct with
  | hr logic rs =>
    intro e he
    rw [parts] at he
    obtain ⟨r, hr, rfl⟩ := List.mem_map.mp he
    exact .rule (List.mem_filter.mp hr).2
  | hg logic cs ih =>
    intro e he
    rw [parts, partsOf_eq] at he
    obtain ⟨c, hc, he⟩ := List.mem_flatMap.mp he
    exact groupJoined_operand (ih c hc) e (Option.mem_toList.mp he)

theorem parts_rules (c : Condition) : (c.parts d).flatMap Formula.rules = c.kept d := by
  induction c using Condition.induct with
  | hr logic rs =>
    rw [parts, kept, flat, List.flatMap_map]
    simp [Formula.rules, Formula.tokens, Token.rules, Token.rule?]
  | hg logic cs ih =>
    rw [parts, partsOf_eq, kept, flat, flatAll_eq, List.flatMap_assoc, List.filter_flatMap]
    refine List.flatMap_congr fun c hc => ?_
    rw [groupJoined_rules, ih c hc]
    rfl

theorem parts_eval (v : Rule → Bool) (c : Condition) :
    c.logic.value? ((c.parts d).map (Formula.eval v)) = value? d v c := by
  induction c using Condition.induct with
  | hr logic rs => simp [parts, value?, Condition.logic, Formula.eval, Function.comp_def]
  | hg logic cs ih =>
    rw [parts, partsOf_eq, value?, values_eq, List.map_flatMap]
    refine congrArg (Logic.value? logic) (List.flatMap_congr fun c hc => ?_)
    rw [← ih c hc, ← groupJoined_eval, Option.toList_map]

end Parts

section Compile

variable {d : Dialect}

theorem compileRules_value (rs : List Rule) : (compileRules d rs).value =
    ((rs.filter (Rule.isKept d)).map .rule).map (Formula.text d) := by
  induction rs with
  | nil => rfl
  | cons r rs ih =>
    have h : (compileRules d (r :: rs)).value =
        (r.compile d).value.toList ++ (compileRules d rs).value := rfl
    rw [h, ih]
    cases hr : (r.compile d).value <;> simp [Rule.isKept, hr]

theorem compileGroups_value (cs : List Condition) :
    (compileGroups d cs).value = cs.flatMap fun c => (compileGroup d c).value.toList := by
  induction cs with
  | nil => rfl
  | cons c cs ih =>
    have h : (compileGroups d (c :: cs)).value =
        (compileGroup d c).value.toList ++ (compileGroups d cs).value := rfl
    rw [h, ih, List.flatMap_cons]

/-- A group is compiled to the text of its formula. -/
theorem compileGroup_value (c : Condition) : (compileGroup d c).value =
    (groupJoined d c.logic (c.parts d)).map (Formula.text d) := by
  rw [groupJoined_text (parts_operand c)]
  induction c using Condition.induct with
  | hr logic rs =>
    exact congrArg (grouped d logic) (compileRules_value rs)
  | hg logic cs ih =>
    refine congrArg (grouped d logic) ?_
    rw [compileGroups_value, parts, partsOf_eq, List.map_flatMap]
    refine List.flatMap_congr fun c hc => ?_
    rw [ih c hc, ← groupJoined_text (parts_operand c), Option.toList_map]

theorem compile_value (c : Condition) :
    (c.compile d).value = join d c.logic ((c.parts d).map (Formula.text d)) := by
  cases c with
  | rules logic rs => exact congrArg (join d logic) (compileRules_value rs)
  | groups logic cs =>
    refine congrArg (join d logic) ?_
    rw [compileGroups_value, parts, partsOf_eq, List.map_flatMap]
    refine List.flatMap_congr fun c _ => ?_
    rw [compileGroup_value, Option.toList_map]

/-- The expression of a condition is spelled with the kept rules, and is not empty if there are
any. -/
theorem exists_spell_compile (d : Dialect) (c : Condition) : ∃ ts,
    Token.spell d ts = (c.compile d).value ∧ Token.rules ts = c.kept d ∧
      (c.kept d ≠ [] → (c.compile d).value ≠ "") := by
  have hes := parts_operand (d := d) c
  have hrules := parts_rules (d := d) c
  cases hj : joined d c.logic (c.parts d) with
  | none =>
    have hn := joined_eq_none_iff.mp hj
    have hk : c.kept d = [] := by rw [← hrules, hn, List.flatMap_nil]
    refine ⟨[], ?_, hk.symm, fun h => absurd hk h⟩
    rw [compile_value, hn]
    cases c.logic <;> simp [join, Token.spell]
  | some x =>
    have hw := whole_joined hes hj
    have ht : x.text d = (c.compile d).value := by rw [text_joined hes hj, compile_value]
    refine ⟨x.tokens, ht, (rules_joined hj).trans hrules, fun _ => ?_⟩
    exact ht ▸ Formula.text_ne_empty hw.kept

end Compile

/-- A condition of which no rule is kept is compiled to the empty text. Any other one is compiled
to a text that is not empty and that spells tokens with the kept rules in their order; the tokens
are read in one way only, as a formula that has the value of the condition, and where the dialect
wraps them the operands of an `or` are in parentheses. -/
theorem compile_reads (d : Dialect) (c : Condition) :
    (c.kept d = [] ∧ (c.compile d).value = "" ∧ ∀ v, c.value? d v = none) ∨
      (c.kept d ≠ [] ∧ (c.compile d).value ≠ "" ∧ ∃ ts x,
        Token.spell d ts = (c.compile d).value ∧ Token.rules ts = c.kept d ∧
        Reads .any ts x ∧ (∀ y, Reads .any ts y → y = x) ∧
        (∀ v, c.value? d v = some (x.eval v)) ∧ (d = .unity → x.OrWrapped)) := by
  have hes := parts_operand (d := d) c
  have hrules := parts_rules (d := d) c
  cases hj : joined d c.logic (c.parts d) with
  | none =>
    have hn := joined_eq_none_iff.mp hj
    refine Or.inl ⟨?_, ?_, fun v => ?_⟩
    · rw [← hrules, hn, List.flatMap_nil]
    · rw [compile_value, hn]
      cases c.logic <;> simp [join]
    · rw [← parts_eval, hn]
      rfl
  | some x =>
    have hw := whole_joined hes hj
    have ht : x.text d = (c.compile d).value := by
      rw [text_joined hes hj, compile_value]
    have hk : x.rules = c.kept d := by
      rw [rules_joined hj, hrules]
    refine Or.inr ⟨?_, ?_, x.tokens, x, ht, hk, hw.reads, ?_, ?_, hw.orWrapped⟩
    · exact hk ▸ x.rules_ne_nil
    · exact ht ▸ Formula.text_ne_empty hw.kept
    · exact fun y hy => hy.unique hw.reads
    · intro v
      rw [← parts_eval, eval_joined v hj]
      cases hp : c.parts d with
      | nil => simp [joined_eq_none_iff.mpr hp] at hj
      | cons e es => rfl

end Condition

end StoryFlow
