import StoryFlow.Proofs.Expr.Reading

/-! # Formulas

What the text of a formula is, which rules it holds and what its value is, when formulas are
joined from left to right. A rule that the dialect keeps has a text, which in one dialect never
starts with a parenthesis.
-/

namespace StoryFlow

/-- The value that a logic gives to several values. -/
def Logic.value : Logic → List Bool → Bool
  | .all, bs => bs.all id
  | .any, bs => bs.any id

/-- The dialect has an expression for the rule. -/
def Rule.isKept (d : Dialect) (r : Rule) : Bool :=
  (r.compile d).value.isSome

namespace Rule

variable {d : Dialect} {r : Rule} {t : String}

theorem ref_ne_empty : r.ref d ≠ "" := by
  cases d <;> simp [ref, Dialect.reference, Dialect.refStyle, RefStyle.reference]

theorem ne_empty_of_expression? (h : r.expression? d = some t) : t ≠ "" := by
  unfold expression? at h
  split at h
  · rw [← Option.some.inj h]
    simp [compare]
  · rw [← Option.some.inj h]
    simp [compare]
  · rw [← Option.some.inj h]
    cases d <;> simp [Dialect.isTrue, ref_ne_empty]
  · rw [← Option.some.inj h]
    cases d <;> simp [Dialect.isFalse]
  · cases d <;> simp [Dialect.isNil?] at h <;> simp [← h]
  · rw [← Option.some.inj h]
    simp
  · rename_i test _
    cases d <;> cases test <;> simp [Dialect.textTest?] at h <;> simp [← h, Dialect.functionName]
  · split at h
    · rw [← Option.some.inj h]
      simp [compare]
    · simp at h
  · simp at h

theorem compile_value :
    (r.compile d).value = (r.expression? d).or (d.placeholder? r.operator) := by
  unfold compile
  split
  · split <;> simp [*]
  · simp [*]

theorem ne_empty_of_compile (h : (r.compile d).value = some t) : t ≠ "" := by
  rw [compile_value] at h
  rcases Option.or_eq_some_iff.mp h with he | ⟨-, hp⟩
  · exact ne_empty_of_expression? he
  · cases d <;> simp [Dialect.placeholder?] at hp
    simp [← hp]

theorem head?_ref_unity : (r.ref .unity).toList.head? = some 'V' := by
  simp [ref, Dialect.reference, Dialect.refStyle, RefStyle.reference]

/-- No rule of this dialect starts with a parenthesis. -/
theorem head?_of_unity (h : r.expression? .unity = some t) : t.toList.head? ≠ some '(' := by
  unfold expression? at h
  split at h
  · rw [← Option.some.inj h]
    simp [compare, head?_ref_unity]
  · rw [← Option.some.inj h]
    simp [compare, head?_ref_unity]
  · rw [← Option.some.inj h]
    simp [Dialect.isTrue, head?_ref_unity]
  · rw [← Option.some.inj h]
    simp [Dialect.isFalse, head?_ref_unity]
  · rw [← Option.some.inj h]
    simp [head?_ref_unity]
  · rw [← Option.some.inj h]
    simp [head?_ref_unity]
  · rename_i test _
    cases test <;> simp [Dialect.textTest?] at h <;> simp [← h]
  · split at h
    · rw [← Option.some.inj h]
      simp [compare, head?_ref_unity]
    · simp at h
  · simp at h

theorem not_isWrapped_of_unity (h : (r.compile .unity).value = some t) : isWrapped t = false := by
  rw [compile_value] at h
  have he : r.expression? .unity = some t := by simpa [Dialect.placeholder?] using h
  simp [isWrapped, head?_of_unity he]

end Rule

namespace Condition

namespace Formula

variable (d : Dialect) (logic : Logic) (v : Rule → Bool)

def tokens : Formula → List Token
  | rule r => [.rule r]
  | paren e => .left :: (tokens e ++ [.right])
  | both a b => tokens a ++ .andWord :: tokens b
  | either a b => tokens a ++ .orWord :: tokens b

def text (e : Formula) : String :=
  Token.spell d e.tokens

def rules (e : Formula) : List Rule :=
  Token.rules e.tokens

/-- The value of a formula when the rules have the given values. -/
def eval : Formula → Bool
  | rule r => v r
  | paren e => eval e
  | both a b => eval a && eval b
  | either a b => eval a || eval b

def IsParen : Formula → Prop
  | paren _ => True
  | _ => False

/-- The operands of an `or`, and otherwise the formula itself. -/
def operands : Formula → List Formula
  | either a b => operands a ++ [b]
  | e => [e]

/-- Every operand of an `or` stands in parentheses of its own. -/
def OrWrapped : Formula → Prop
  | rule _ => True
  | paren e => OrWrapped e
  | both a b => OrWrapped a ∧ OrWrapped b
  | either a b => OrWrapped a ∧ OrWrapped b ∧ ∀ e ∈ operands (either a b), IsParen e

def op : Formula → Formula → Formula :=
  match logic with
  | .all => both
  | .any => either

def join : List Formula → Option Formula
  | [] => none
  | e :: es => some (es.foldl (op logic) e)

section Text

variable {d : Dialect}

@[simp] theorem text_rule (r : Rule) : (rule r).text d = (r.compile d).value.getD "" := by
  simp [text, tokens, Token.spell, Token.text]

@[simp] theorem text_paren (e : Formula) : (paren e).text d = parenthesize (e.text d) := by
  simp [text, tokens, Token.spell, Token.spell_append, Token.text, parenthesize,
    String.append_assoc]

def word (d : Dialect) : Logic → String
  | .all => d.andWord
  | .any => d.orWord

theorem text_op (a b : Formula) :
    (op logic a b).text d = a.text d ++ word d logic ++ b.text d := by
  cases logic <;>
    simp [op, word, text, tokens, Token.spell, Token.spell_append, Token.text,
      String.append_assoc]

theorem text_foldl (e : Formula) (es : List Formula) :
    (es.foldl (op logic) e).text d = (word d logic).intercalate ((e :: es).map (text d)) := by
  induction es generalizing e with
  | nil => simp
  | cons a es ih =>
    rw [List.foldl_cons, ih, List.map_cons, text_op]
    simp [String.intercalate_cons_append, String.intercalate_cons_cons, String.append_assoc]

theorem word_ne_empty : word d logic ≠ "" := by
  cases d <;> cases logic <;> simp [word, Dialect.andWord, Dialect.orWord]

theorem text_ne_empty {e : Formula} (h : ∀ r ∈ e.rules, r.isKept d) : e.text d ≠ "" := by
  cases e with
  | rule r =>
    have hr : r ∈ (rule r).rules := by
      simp [rules, tokens, Token.rules, Token.rule?]
    obtain ⟨t, ht⟩ := Option.isSome_iff_exists.mp (h r hr)
    simpa [ht] using Rule.ne_empty_of_compile ht
  | paren e => simp [parenthesize]
  | both a b =>
    have := text_op (d := d) .all a b
    simp only [op] at this
    simp [this, word_ne_empty]
  | either a b =>
    have := text_op (d := d) .any a b
    simp only [op] at this
    simp [this, word_ne_empty]

end Text

section Join

theorem rules_op (a b : Formula) : (op logic a b).rules = a.rules ++ b.rules := by
  cases logic <;> simp [op, rules, tokens, Token.rules, List.filterMap_cons, Token.rule?]

theorem rules_foldl (e : Formula) (es : List Formula) :
    (es.foldl (op logic) e).rules = (e :: es).flatMap rules := by
  induction es generalizing e with
  | nil => simp
  | cons a es ih => simp [ih, rules_op]

@[simp] theorem rules_paren (e : Formula) : (paren e).rules = e.rules := by
  simp [rules, tokens, Token.rules, List.filterMap_cons, Token.rule?]

theorem rules_ne_nil (e : Formula) : e.rules ≠ [] := by
  induction e with
  | rule r => simp [rules, tokens, Token.rules, Token.rule?]
  | paren e ih => simpa using ih
  | both a b ih _ =>
    have := rules_op .all a b
    simp only [op] at this
    simp [this, ih]
  | either a b ih _ =>
    have := rules_op .any a b
    simp only [op] at this
    simp [this, ih]

theorem eval_foldl (e : Formula) (es : List Formula) :
    (es.foldl (op logic) e).eval v = logic.value ((e :: es).map (eval v)) := by
  induction es generalizing e with
  | nil => cases logic <;> simp [Logic.value]
  | cons a es ih =>
    rw [List.foldl_cons, ih]
    cases logic <;> simp [Logic.value, op, eval, Bool.and_assoc, Bool.or_assoc]

/-- Operands that are joined are read from left to right. -/
theorem reads_foldl {e : Formula} {es : List Formula} (he : Reads .atom e.tokens e)
    (hes : ∀ a ∈ es, Reads .atom a.tokens a) :
    Reads .any (es.foldl (op logic) e).tokens (es.foldl (op logic) e) := by
  cases logic with
  | all =>
    refine .ofAll ?_
    replace he := Reads.ofAtom he
    induction es generalizing e with
    | nil => exact he
    | cons a es ih =>
      obtain ⟨ha, hes⟩ := List.forall_mem_cons.mp hes
      exact ih hes (.both he ha)
  | any =>
    replace he := Reads.ofAll (.ofAtom he)
    induction es generalizing e with
    | nil => exact he
    | cons a es ih =>
      obtain ⟨ha, hes⟩ := List.forall_mem_cons.mp hes
      exact ih hes (.either he (.ofAtom ha))

theorem operands_of_isParen {e : Formula} (h : e.IsParen) : e.operands = [e] := by
  cases e <;> simp_all [IsParen, operands]

theorem orWrapped_foldl_all {e : Formula} {es : List Formula} (he : e.OrWrapped)
    (hes : ∀ a ∈ es, a.OrWrapped) : (es.foldl (op .all) e).OrWrapped := by
  induction es generalizing e with
  | nil => exact he
  | cons a es ih =>
    obtain ⟨ha, hes⟩ := List.forall_mem_cons.mp hes
    exact ih ⟨he, ha⟩ hes

/-- Operands in parentheses stay wrapped when they are joined by `or`. -/
theorem orWrapped_foldl_any {e : Formula} {es : List Formula} (he : e.OrWrapped)
    (hp : ∀ o ∈ e.operands, o.IsParen) (hes : ∀ a ∈ es, a.OrWrapped ∧ a.IsParen) :
    (es.foldl (op .any) e).OrWrapped := by
  induction es generalizing e with
  | nil => exact he
  | cons a es ih =>
    obtain ⟨⟨ha, hap⟩, hes⟩ := List.forall_mem_cons.mp hes
    have ho : ∀ o ∈ (either e a).operands, o.IsParen := by
      simp only [operands, List.forall_mem_append]
      exact ⟨hp, by simpa using hap⟩
    exact ih ⟨he, ha, ho⟩ ho hes

end Join

end Formula

end Condition

end StoryFlow
