import StoryFlow.Expr.Assignment
import StoryFlow.Graph.Step
import StoryFlow.Proofs.Expr.Traversal
import StoryFlow.Script.Guard

/-! # The rules of guards

A guard is made of the rules of a condition, or of one rule of it. Its text is spelled with those
rules that the dialect keeps, and what compiling it asks the host for are the functions of its rules:
a rule that needs a function is always kept.
-/

namespace StoryFlow

/-- The functions that were asked for on the way, in the order in which they came up. -/
def Notes.functions (n : Notes) : List String :=
  n.warnings.filterMap Warning.function?

/-- A rule tests a text by a function with the name. -/
def Rule.Needs (name : String) (r : Rule) : Prop :=
  ∃ test, Operator.ofName r.operator = .textTest test ∧ Dialect.functionName test = name

/-- The expression of a guard that has one. -/
def Guard.expr? : Guard → Option String
  | .ifTest expr | .elseIf expr => some expr
  | .otherwise => none

namespace Condition

/-- The rules of a stored condition that can be read. -/
def storedRules (stored : Option Json) : List Rule :=
  match read stored with
  | .ok (some c) => c.flat
  | _ => []

/-- The rule with an id in a stored condition that can be read. -/
def storedRule? (stored : Option Json) (id : String) : Option Rule :=
  match read stored with
  | .ok (some c) => c.findRule id
  | _ => none

/-- Tokens spell the test of a guard, or what it negates. -/
inductive SpellsTest (d : Dialect) (ts : List Token) : String → Prop where

  | plain : SpellsTest d ts (Token.spell d ts)

  | negated : SpellsTest d ts (d.negate (parenthesize (Token.spell d ts)))

end Condition

/-- The rules that the guard of a case is made of. -/
def Branching.rulesOf (b : Branching) (c : Case) (index : Nat) : List Rule :=
  if b.isSwitch then (c.id.bind (Condition.storedRule? b.condition)).toList
  else if index = 0 then Condition.storedRules b.condition else []

/-- The rules that a step tests. -/
@[simp] def Step.rules : Step → List Rule
  | .choice _ r _ => Condition.storedRules r.condition
  | .conditionBranch _ b c i => b.rulesOf c i
  | _ => []

namespace Notes

variable {α β : Type}

@[simp] theorem functions_none : Notes.none.functions = [] := rfl

@[simp] theorem functions_append (m n : Notes) :
    (m ++ n).functions = m.functions ++ n.functions :=
  List.filterMap_append

@[simp] theorem functions_pure (a : α) : (pure a : Noted α).notes.functions = [] := rfl

@[simp] theorem functions_bind (x : Noted α) (f : α → Noted β) :
    (x >>= f).notes.functions = x.notes.functions ++ (f x.value).notes.functions :=
  functions_append _ _

end Notes

section Functions

variable {d : Dialect}

namespace Rule

variable {r : Rule} {name : String}

theorem function?_eq_some_iff : r.function? .yarn = some name ↔ r.Needs name := by
  unfold function? Needs
  cases Operator.ofName r.operator <;> simp [Dialect.needsFunctions]

/-- The dialect that needs a function has an expression for its call. -/
theorem isSome_expression?_of_function? (h : r.function? d = some name) :
    (r.expression? d).isSome := by
  unfold function? at h
  unfold expression?
  split at h
  · rename_i test ht
    rw [Option.ite_none_right_eq_some] at h
    obtain rfl : d = .yarn := by simpa [Dialect.needsFunctions] using h.1
    rw [ht]
    cases test <;> rfl
  · simp at h

theorem isKept_of_function? (h : r.function? d = some name) : r.isKept d := by
  rw [isKept, compile_value, Option.isSome_or, isSome_expression?_of_function? h, Bool.true_or]

theorem functions_compile (d : Dialect) (r : Rule) :
    (r.compile d).notes.functions = (r.function? d).toList := by
  unfold compile
  cases he : r.expression? d with
  | none =>
    cases hf : r.function? d with
    | none => rfl
    | some name => simpa [he] using isSome_expression?_of_function? hf
  | some expr => cases r.function? d <;> rfl

end Rule

namespace Condition

theorem functions_compile (d : Dialect) (c : Condition) :
    (c.compile d).notes.functions = c.flat.filterMap (Rule.function? d) := by
  have hrules : (c.compile d).notes.functions =
      c.flat.flatMap fun r => (r.compile d).notes.functions := by
    rw [notes_compile]
    exact List.filterMap_flatMap
  rw [hrules, List.filterMap_eq_flatMap_toList]
  exact List.flatMap_congr fun r _ => r.functions_compile d

/-- The guard of a stored condition that can be read is that of the condition, and there is none of
any other. -/
theorem guard?_cases (d : Dialect) (stored : Option Json) :
    (∃ c : Condition, storedRules stored = c.flat ∧
      (guard? d stored).value = guard?.given (c.compile d).value ∧
      (guard? d stored).notes.functions = (c.compile d).notes.functions) ∨
    storedRules stored = [] ∧ (guard? d stored).value = none ∧
      (guard? d stored).notes.functions = [] := by
  unfold guard? compileStored storedRules
  cases read stored with
  | error e => exact Or.inr ⟨rfl, rfl, rfl⟩
  | ok c =>
    cases c with
    | none => exact Or.inr ⟨rfl, rfl, rfl⟩
    | some c =>
      refine Or.inl ⟨c, rfl, rfl, ?_⟩
      simp [bind, Except.bind, pure, Except.pure]

theorem caseGuard_eq (d : Dialect) (stored : Option Json) (id : String) :
    caseGuard d stored id =
      ((storedRule? stored id).map (·.compile d)).getD (pure none) := by
  unfold caseGuard storedRule?
  cases read stored with
  | error e => rfl
  | ok c => cases c <;> rfl

theorem functions_guard? (d : Dialect) (stored : Option Json) :
    (guard? d stored).notes.functions = (storedRules stored).filterMap (Rule.function? d) := by
  rcases guard?_cases d stored with ⟨c, hrules, -, hnotes⟩ | ⟨hrules, -, hnotes⟩
  · rw [hnotes, hrules, functions_compile]
  · rw [hnotes, hrules, List.filterMap_nil]

theorem functions_caseGuard (d : Dialect) (stored : Option Json) (id : String) :
    (caseGuard d stored id).notes.functions =
      (storedRule? stored id).toList.filterMap (Rule.function? d) := by
  rw [caseGuard_eq]
  cases storedRule? stored id with
  | none => rfl
  | some r =>
    simp only [Option.map_some, Option.getD_some, Rule.functions_compile]
    cases hf : r.function? d <;> simp [hf]

end Condition

theorem Branching.functions_guard (d : Dialect) (b : Branching) (c : Case) (i : Nat) :
    (b.guard d c i).notes.functions = (b.rulesOf c i).filterMap (Rule.function? d) := by
  unfold guard rulesOf
  split
  · rw [switchGuard, Notes.functions_bind, Notes.functions_pure, List.append_nil]
    cases c.id with
    | none => rfl
    | some id => exact Condition.functions_caseGuard d b.condition id
  · cases i with
    | zero =>
      rw [outcomeGuard, Notes.functions_bind, Notes.functions_pure, List.append_nil,
        Condition.functions_guard?, if_pos rfl]
    | succ i => rfl

/-- Statements ask for no functions. -/
theorem Assignment.functions_statements (d : Dialect) (stored : List Json) :
    (Assignment.statements d stored).notes.functions = [] := by
  unfold statements
  induction ofList stored with
  | nil => rfl
  | cons a as ih =>
    have hcompile : (a.compile d).notes.functions = [] := by
      unfold compile
      split <;> rfl
    simp only [compileAll, Notes.functions_bind, Notes.functions_pure, List.append_nil, hcompile,
      ih]

end Functions

section Spelling

variable {d : Dialect} {r : Rule}

namespace Condition

theorem Token.infix_spell {t : Token} {ts : List Token} (h : t ∈ ts) :
    (t.text d).toList <:+: (spell d ts).toList := by
  induction ts with
  | nil => simp at h
  | cons u ts ih =>
    rw [spell, String.toList_append]
    rcases List.mem_cons.mp h with rfl | h
    · exact (List.prefix_append _ _).isInfix
    · exact (ih h).trans (List.suffix_append _ _).isInfix

/-- What tokens spell stands in the test, also where it is negated. -/
theorem SpellsTest.infix {ts : List Token} {test : String} (h : SpellsTest d ts test) :
    (Token.spell d ts).toList <:+: test.toList := by
  cases h with
  | plain => exact List.infix_rfl
  | negated =>
    have hinner : (Token.spell d ts).toList <:+: (parenthesize (Token.spell d ts)).toList :=
      ⟨['('], [')'], by simp [parenthesize]⟩
    refine hinner.trans ?_
    cases d <;> simp only [Dialect.negate, String.toList_append] <;>
      exact (List.suffix_append _ _).isInfix

/-- The text of a rule that a test is spelled with stands in the test. -/
theorem SpellsTest.rule_infix {ts : List Token} {test : String} (h : SpellsTest d ts test)
    (hr : r ∈ Token.rules ts) :
    ((r.compile d).value.getD "").toList <:+: test.toList := by
  obtain ⟨t, ht, he⟩ := List.mem_filterMap.mp hr
  cases t with
  | rule a =>
    obtain rfl : a = r := Option.some.inj he
    exact (Token.infix_spell ht).trans h.infix
  | left | right | andWord | orWord => simp [Token.rule?] at he

/-- A guard of which a rule is kept is spelled with the kept rules. -/
theorem spell_guard? {stored : Option Json} (hr : r ∈ storedRules stored) (hk : r.isKept d) :
    ∃ ts, (guard? d stored).value = some (Token.spell d ts) ∧
      Token.rules ts = (storedRules stored).filter (Rule.isKept d) := by
  rcases guard?_cases d stored with ⟨c, hrules, hguard, -⟩ | ⟨hrules, -⟩
  · rw [hrules] at hr ⊢
    obtain ⟨ts, hspell, hkept, hne⟩ := exists_spell_compile d c
    have hr' : r ∈ c.kept d := List.mem_filter.mpr ⟨hr, hk⟩
    refine ⟨ts, ?_, hkept⟩
    rw [hguard, guard?.given, if_neg (hne (List.ne_nil_of_mem hr')), hspell]
  · simp [hrules] at hr

theorem spell_caseGuard {stored : Option Json} {id : String}
    (hr : storedRule? stored id = some r) (hk : r.isKept d) :
    (caseGuard d stored id).value = some (Token.spell d [.rule r]) := by
  obtain ⟨expr, hexpr⟩ := Option.isSome_iff_exists.mp hk
  simp [caseGuard_eq, hr, hexpr, Token.spell, Token.text]

end Condition

open Condition

/-- The guard of a case of which a rule is kept has a test that is spelled with the kept rules. -/
theorem Branching.spells_guard {b : Branching} {c : Case} {i : Nat} (hr : r ∈ b.rulesOf c i)
    (hk : r.isKept d) :
    ∃ expr ts, (b.guard d c i).value.expr? = some expr ∧ SpellsTest d ts expr ∧
      Token.rules ts = (b.rulesOf c i).filter (Rule.isKept d) := by
  unfold rulesOf at hr ⊢
  unfold guard
  split at hr
  · rename_i hs
    rw [if_pos hs, if_pos hs]
    rw [Option.mem_toList] at hr
    obtain ⟨id, hid, hrule⟩ := Option.bind_eq_some_iff.mp hr
    refine ⟨Token.spell d [.rule r], [.rule r], ?_, .plain, ?_⟩
    · have hguard := spell_caseGuard hrule hk
      simp only [switchGuard, hid, Option.map_some, Option.getD_some, bind, pure, hguard]
      cases i <;> rfl
    · simp [hr, hk, Token.rules, Token.rule?]
  · rename_i hs
    rw [if_neg hs, if_neg hs]
    split at hr
    · rename_i hi
      subst hi
      obtain ⟨ts, hguard, hrules⟩ := spell_guard? hr hk
      simp only [outcomeGuard, bind, pure, hguard, Option.getD_some, Guard.expr?, if_true]
      by_cases hv : c.value = some "false"
      · exact ⟨_, ts, by rw [if_pos hv], .negated, hrules⟩
      · exact ⟨_, ts, by rw [if_neg hv], .plain, hrules⟩
    · simp at hr

end Spelling

end StoryFlow
