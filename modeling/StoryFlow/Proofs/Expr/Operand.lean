import StoryFlow.Proofs.Expr.Formula

/-! # Operands of compiled conditions

What a condition joins are rules and formulas in parentheses. Such operands can be joined by any
logic, and what they are joined to is read back as it was put together.
-/

namespace StoryFlow.Condition

variable {d : Dialect} {logic : Logic} {e x : Formula} {es : List Formula}

/-- A formula that can be joined with others. -/
structure Operand (d : Dialect) (e : Formula) : Prop where
  reads : Reads .atom e.tokens e
  kept : ∀ r ∈ e.rules, r.isKept d
  wrapped : d = .unity → (isWrapped (e.text d) ↔ e.IsParen)
  orWrapped : d = .unity → e.OrWrapped

/-- A formula that can stand for a whole condition. -/
structure Whole (d : Dialect) (x : Formula) : Prop where
  reads : Reads .any x.tokens x
  kept : ∀ r ∈ x.rules, r.isKept d
  orWrapped : d = .unity → x.OrWrapped

theorem isWrapped_parenthesize (s : String) : isWrapped (parenthesize s) := by
  simp [isWrapped, parenthesize, List.getLast?_cons]

theorem Operand.rule {r : Rule} (h : r.isKept d) : Operand d (.rule r) where
  reads := .rule
  kept a ha := by
    obtain rfl : a = r := by
      simpa [Formula.rules, Formula.tokens, Token.rules, Token.rule?] using ha
    exact h
  wrapped hd := by
    subst hd
    obtain ⟨t, ht⟩ := Option.isSome_iff_exists.mp h
    simp [ht, Rule.not_isWrapped_of_unity ht, Formula.IsParen]
  orWrapped _ := trivial

theorem Whole.paren (h : Whole d x) : Operand d (.paren x) where
  reads := .paren h.reads
  kept := by simpa using h.kept
  wrapped _ := by simp [isWrapped_parenthesize, Formula.IsParen]
  orWrapped := h.orWrapped

theorem Operand.whole (h : Operand d e) : Whole d e :=
  ⟨.ofAll (.ofAtom h.reads), h.kept, h.orWrapped⟩

section Wrap

/-- Puts a formula in parentheses that has none around it. -/
def wrap : Formula → Formula
  | .paren e => .paren e
  | e => .paren e

def wrapAll (d : Dialect) (logic : Logic) (es : List Formula) : List Formula :=
  match logic with
  | .all => es
  | .any => if d.wrapsOr ∧ 1 < es.length then es.map wrap else es

theorem Operand.wrap (h : Operand d e) : Operand d (wrap e) := by
  cases e with
  | paren e => exact h
  | rule | both | either => exact h.whole.paren

theorem isParen_wrap (e : Formula) : (wrap e).IsParen := by
  cases e <;> trivial

theorem text_wrap (h : Operand .unity e) : (wrap e).text .unity =
    if isWrapped (e.text .unity) then e.text .unity else parenthesize (e.text .unity) := by
  have hw := h.wrapped rfl
  cases e with
  | paren e => simp [Condition.wrap, isWrapped_parenthesize]
  | rule | both | either => simp_all [Condition.wrap, Formula.IsParen]

@[simp] theorem rules_wrap (e : Formula) : (wrap e).rules = e.rules := by
  cases e <;> simp [wrap]

@[simp] theorem eval_wrap (v : Rule → Bool) (e : Formula) : (wrap e).eval v = e.eval v := by
  cases e <;> simp [wrap, Formula.eval]

theorem wrapAll_operand (logic : Logic) (hes : ∀ e ∈ es, Operand d e) :
    ∀ e ∈ wrapAll d logic es, Operand d e := by
  unfold wrapAll
  split
  · exact hes
  · split
    · intro e he
      obtain ⟨a, ha, rfl⟩ := List.mem_map.mp he
      exact (hes a ha).wrap
    · exact hes

theorem flatMap_rules_wrapAll : (wrapAll d logic es).flatMap Formula.rules =
    es.flatMap Formula.rules := by
  unfold wrapAll
  split
  · rfl
  · split
    · simp [List.flatMap_map]
    · rfl

theorem map_eval_wrapAll (v : Rule → Bool) : (wrapAll d logic es).map (Formula.eval v) =
    es.map (Formula.eval v) := by
  unfold wrapAll
  split
  · rfl
  · split
    · simp [Function.comp_def]
    · rfl

theorem join_map_text (hes : ∀ e ∈ es, Operand d e) :
    join d logic (es.map (Formula.text d)) =
      (Formula.word d logic).intercalate ((wrapAll d logic es).map (Formula.text d)) := by
  cases logic with
  | all => rfl
  | any =>
    simp only [join, wrapAll, List.length_map, Formula.word]
    split
    · rename_i hw
      obtain rfl : d = .unity := by simpa [Dialect.wrapsOr] using hw.1
      rw [List.map_map, List.map_map]
      refine congrArg _ (List.map_congr_left fun e he => ?_)
      exact (text_wrap (hes e he)).symm
    · rfl

theorem isParen_of_wrapAll_unity (hl : 1 < es.length) :
    ∀ e ∈ wrapAll .unity .any es, e.IsParen := by
  intro e he
  simp only [wrapAll, Dialect.wrapsOr, decide_true, hl, and_self, if_true, List.mem_map] at he
  obtain ⟨a, _, rfl⟩ := he
  exact isParen_wrap a

end Wrap

section Joined

def joined (d : Dialect) (logic : Logic) (es : List Formula) : Option Formula :=
  Formula.join logic (wrapAll d logic es)

theorem length_wrapAll (d : Dialect) (logic : Logic) (es : List Formula) :
    (wrapAll d logic es).length = es.length := by
  unfold wrapAll
  split
  · rfl
  · split <;> simp

theorem joined_eq_none_iff : joined d logic es = none ↔ es = [] := by
  rw [← List.length_eq_zero_iff, ← length_wrapAll d logic es, List.length_eq_zero_iff, joined]
  cases wrapAll d logic es <;> simp [Formula.join]

theorem joined_eq_some (h : joined d logic es = some x) :
    ∃ a as, wrapAll d logic es = a :: as ∧ as.foldl (Formula.op logic) a = x := by
  unfold joined at h
  cases hw : wrapAll d logic es with
  | nil => simp [hw, Formula.join] at h
  | cons a as => exact ⟨a, as, rfl, by simpa [hw, Formula.join] using h⟩

theorem rules_joined (h : joined d logic es = some x) : x.rules = es.flatMap Formula.rules := by
  obtain ⟨a, as, hw, rfl⟩ := joined_eq_some h
  rw [← flatMap_rules_wrapAll (d := d), hw, Formula.rules_foldl]

theorem eval_joined (v : Rule → Bool) (h : joined d logic es = some x) :
    x.eval v = logic.value (es.map (Formula.eval v)) := by
  obtain ⟨a, as, hw, rfl⟩ := joined_eq_some h
  rw [← map_eval_wrapAll (d := d), hw, Formula.eval_foldl]

theorem text_joined (hes : ∀ e ∈ es, Operand d e) (h : joined d logic es = some x) :
    x.text d = join d logic (es.map (Formula.text d)) := by
  obtain ⟨a, as, hw, rfl⟩ := joined_eq_some h
  rw [join_map_text hes, hw, Formula.text_foldl]

theorem orWrapped_joined (hes : ∀ e ∈ es, Operand .unity e)
    (h : joined .unity logic es = some x) : x.OrWrapped := by
  obtain ⟨a, as, hw, rfl⟩ := joined_eq_some h
  have ho : ∀ e ∈ a :: as, e.OrWrapped :=
    fun e he => (wrapAll_operand logic hes e (hw ▸ he)).orWrapped rfl
  obtain ⟨ha, has⟩ := List.forall_mem_cons.mp ho
  cases logic with
  | all => exact Formula.orWrapped_foldl_all ha has
  | any =>
    cases as with
    | nil => exact ha
    | cons b as =>
      have hl : 1 < es.length := by
        rw [← length_wrapAll .unity .any es, hw]
        simp
      have hp : ∀ e ∈ a :: b :: as, e.IsParen := hw ▸ isParen_of_wrapAll_unity hl
      obtain ⟨hap, hbp⟩ := List.forall_mem_cons.mp hp
      refine Formula.orWrapped_foldl_any ha ?_ (fun e he => ⟨has e he, hbp e he⟩)
      rw [Formula.operands_of_isParen hap]
      exact List.forall_mem_singleton.mpr hap

theorem whole_joined (hes : ∀ e ∈ es, Operand d e) (h : joined d logic es = some x) :
    Whole d x := by
  refine ⟨?_, ?_, fun hd => ?_⟩
  · obtain ⟨a, as, hw, rfl⟩ := joined_eq_some h
    have hr : ∀ e ∈ a :: as, Reads .atom e.tokens e :=
      fun e he => (wrapAll_operand logic hes e (hw ▸ he)).reads
    obtain ⟨ha, has⟩ := List.forall_mem_cons.mp hr
    exact Formula.reads_foldl logic ha has
  · intro r hr
    rw [rules_joined h] at hr
    obtain ⟨e, he, hr⟩ := List.mem_flatMap.mp hr
    exact (hes e he).kept r hr
  · subst hd
    exact orWrapped_joined hes h

/-- The formula of a group; a group of one is that one. -/
def groupJoined (d : Dialect) (logic : Logic) : List Formula → Option Formula
  | [] => none
  | [e] => some e
  | es => (joined d logic es).map .paren

theorem groupJoined_cases (d : Dialect) (logic : Logic) (es : List Formula) :
    (es = [] ∧ groupJoined d logic es = none) ∨ (∃ e, es = [e] ∧ groupJoined d logic es = some e) ∨
      ∃ x, joined d logic es = some x ∧ groupJoined d logic es = some (.paren x) ∧
        1 < es.length := by
  match es with
  | [] => exact Or.inl ⟨rfl, rfl⟩
  | [e] => exact Or.inr (Or.inl ⟨e, rfl, rfl⟩)
  | a :: b :: es =>
    have hn : joined d logic (a :: b :: es) ≠ none := by
      rw [Ne, joined_eq_none_iff]
      simp
    obtain ⟨x, hx⟩ := Option.ne_none_iff_exists'.mp hn
    exact Or.inr (Or.inr ⟨x, hx, by simp [groupJoined, hx], by simp⟩)

end Joined

end StoryFlow.Condition
