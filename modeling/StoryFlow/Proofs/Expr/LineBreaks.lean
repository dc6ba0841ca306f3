import StoryFlow.Proofs.Expr.Guards
import StoryFlow.Proofs.Number.Text
import StoryFlow.Proofs.Text.LineBreaks

/-! # Line breaks in expressions

Literals are quoted with their line breaks escaped and references keep no blanks, so assignments
are unbroken. So are conditions, except that one dialect writes the operator of a rule that it has
no form for.
-/

namespace StoryFlow

open Text

section Literals

variable {cs : List Char}

theorem Number.unbroken_text (x : Number) : Unbroken x.text := by
  rw [text, Unbroken, String.toList_ofList]
  intro c hc
  rcases x.isPrinted_chars c hc with h | rfl | rfl | rfl
  · rintro (rfl | rfl) <;> simp at h
  · decide
  · decide
  · decide

namespace Literal

theorem not_endsLine_quotedChar (a : Char) : ∀ c ∈ quotedChar a, ¬ EndsLine c := by
  unfold quotedChar
  split
  · decide
  · split
    · decide
    · split
      · decide
      · split
        · decide
        · rename_i hn hr
          split
          · simp
          · exact List.forall_mem_singleton.mpr (not_or.mpr ⟨hn, hr⟩)

theorem unbroken_quote (s : String) : Unbroken (quote s) := by
  rw [quote, unbroken_onChars, quoteChars, List.forall_mem_cons, List.forall_mem_append]
  refine ⟨by decide, ?_, by decide⟩
  exact List.forall_mem_flatMap.mpr fun a _ => not_endsLine_quotedChar a

theorem not_endsLine_of_areDigits (h : areDigits cs) : ∀ c ∈ cs, ¬ EndsLine c := by
  intro c hc
  simp only [areDigits, Bool.and_eq_true, List.all_eq_true] at h
  exact not_endsLine_of (by decide) (by decide) (h.2 c hc)

theorem not_endsLine_of_isUnsignedNumeral (h : isUnsignedNumeral cs) :
    ∀ c ∈ cs, ¬ EndsLine c := by
  unfold isUnsignedNumeral at h
  split at h
  · exact not_endsLine_of_areDigits h
  · rename_i c rest hd
    simp only [Bool.and_eq_true, beq_iff_eq] at h
    obtain ⟨⟨rfl, hwhole⟩, hrest⟩ := h
    rw [← List.takeWhile_append_dropWhile (p := Char.isDigit) (l := cs), hd]
    exact List.forall_mem_append.mpr ⟨not_endsLine_of_areDigits hwhole,
      List.forall_mem_cons.mpr ⟨by decide, not_endsLine_of_areDigits hrest⟩⟩

theorem not_endsLine_of_isNumeral (h : isNumeral cs) : ∀ c ∈ cs, ¬ EndsLine c := by
  unfold isNumeral at h
  split at h
  · exact List.forall_mem_cons.mpr ⟨by decide, not_endsLine_of_isUnsignedNumeral h⟩
  · exact not_endsLine_of_isUnsignedNumeral h

theorem unbroken_ofText (s : String) : Unbroken (ofText s) := by
  unfold ofText
  split
  · rename_i h
    simp only [isBare, Bool.or_eq_true, beq_iff_eq] at h
    rcases h with (rfl | rfl) | h
    · decide
    · decide
    · exact not_endsLine_of_isNumeral h
  · exact unbroken_quote s

theorem unbroken_ofJson {nullWord : String} (hn : Unbroken nullWord) (j : Option Json) :
    Unbroken (ofJson nullWord j) := by
  unfold ofJson
  split
  · exact hn
  · exact hn
  · split <;> decide
  · split
    · exact Number.unbroken_text _
    · decide
  · exact unbroken_ofText _
  · exact unbroken_quote _

end Literal

theorem RefStyle.unbroken_reference (style : RefStyle) (sheet name : String) :
    Unbroken (style.reference sheet name) := by
  have hchar : ∀ {c : Char}, isRefChar c → ¬ EndsLine c :=
    fun h => not_endsLine_of (by decide) (by decide) h
  have hclean : ∀ s, Unbroken (clean s) := by
    intro s
    rw [clean, unbroken_onChars]
    exact fun c hc => hchar (List.mem_filter.mp hc).2
  have hflat : ∀ s, Unbroken (flat s) := by
    intro s
    rw [flat, unbroken_onChars]
    intro c hc
    obtain ⟨a, ha, rfl⟩ := List.mem_map.mp hc
    split
    · decide
    · exact hchar (List.mem_filter.mp ha).2
  cases style <;> simp +decide [reference, hclean, hflat]

end Literals

namespace Dialect

variable {d : Dialect} {ref value : String}

theorem unbroken_reference (d : Dialect) (sheet name : String) :
    Unbroken (d.reference sheet name) :=
  RefStyle.unbroken_reference _ _ _

theorem unbroken_nullWord (d : Dialect) : Unbroken d.nullWord := by
  cases d <;> decide

theorem unbroken_negate (d : Dialect) (expr : String) :
    Unbroken (d.negate expr) ↔ Unbroken expr := by
  cases d <;> simp +decide [negate]

section Operands

variable (hr : Unbroken ref) (hv : Unbroken value)

include hr

theorem unbroken_isTrue : Unbroken (d.isTrue ref) := by
  cases d <;> simp +decide [isTrue, hr]

theorem unbroken_isFalse : Unbroken (d.isFalse ref) := by
  cases d <;> simp +decide [isFalse, hr]

theorem unbroken_isNil? : ∀ t ∈ d.isNil? ref, Unbroken t := by
  cases d <;> simp +decide [isNil?, nullWord, hr]

include hv

theorem unbroken_textTest? (test : TextTest) : ∀ t ∈ d.textTest? test ref value, Unbroken t := by
  cases d
  case ink => simp [textTest?]
  all_goals cases test <;> simp +decide [textTest?, hr, hv]

theorem unbroken_assign : Unbroken (d.assign ref value) := by
  unfold assign
  split <;> simp +decide [hr, hv]

theorem unbroken_increment (sign : Sign) : Unbroken (d.increment ref sign value) := by
  have hs : Unbroken sign.symbol := by cases sign <;> decide
  unfold increment
  split <;> simp +decide [hs, hr, hv]

theorem unbroken_assignIfUnset : Unbroken (d.assignIfUnset ref value) := by
  unfold assignIfUnset
  split <;> simp +decide [hr, hv]

end Operands

end Dialect

namespace Assignment

variable {d : Dialect} {a : Assignment} {s : String}

theorem unbroken_valueExpr (d : Dialect) (a : Assignment) : Unbroken (a.valueExpr d) := by
  unfold valueExpr
  split
  · exact d.unbroken_reference _ _
  · split
    · decide
    · decide
    · exact Literal.unbroken_ofJson d.unbroken_nullWord _

theorem unbroken_statement? (d : Dialect) (a : Assignment) :
    ∀ s ∈ a.statement? d, Unbroken s := by
  have hr := d.unbroken_reference a.sheet a.name
  have hv := unbroken_valueExpr d a
  unfold statement?
  intro s hs
  split at hs
  · exact Option.some.inj hs ▸ Dialect.unbroken_assign hr hv
  · exact Option.some.inj hs ▸ Dialect.unbroken_assign hr (by decide)
  · exact Option.some.inj hs ▸ Dialect.unbroken_assign hr (by decide)
  · exact Option.some.inj hs ▸ Dialect.unbroken_assign hr ((d.unbroken_negate _).mpr hr)
  · exact Option.some.inj hs ▸ Dialect.unbroken_increment hr hv .plus
  · exact Option.some.inj hs ▸ Dialect.unbroken_increment hr hv .minus
  · exact Option.some.inj hs ▸ Dialect.unbroken_assign hr (by decide)
  · exact Option.some.inj hs ▸ Dialect.unbroken_assignIfUnset hr hv
  · cases hs

theorem unbroken_compileAll (d : Dialect) (as : List Assignment) :
    ∀ s ∈ (compileAll d as).value, Unbroken s := by
  induction as with
  | nil => simp [compileAll, pure]
  | cons a as ih =>
    have h : (compileAll d (a :: as)).value =
        (a.compile d).value.toList ++ (compileAll d as).value := rfl
    rw [h]
    refine List.forall_mem_append.mpr ⟨fun s hs => ?_, ih⟩
    apply unbroken_statement? d a
    unfold compile at hs
    cases ha : a.statement? d with
    | none => simp [ha] at hs
    | some stmt => simpa [ha, pure, eq_comm] using hs

/-- No value and no name breaks the line of a statement. -/
theorem unbroken_statements (d : Dialect) (stored : List Json) :
    ∀ s ∈ (statements d stored).value, Unbroken s :=
  unbroken_compileAll d _

end Assignment

section Rules

variable {d : Dialect} {t : String}

theorem Operator.unbroken_of_ofName {name : String} (h : ofName name ≠ other) : Unbroken name := by
  unfold ofName at h
  split at h
  all_goals first | decide | exact absurd rfl h

/-- The symbol of a comparison, also of dates. -/
def Operator.symbol? : Operator → Option String
  | comparison symbol | date symbol => some symbol
  | _ => none

theorem Operator.unbroken_symbol (name : String) : ∀ s ∈ (ofName name).symbol?, Unbroken s := by
  unfold ofName
  split <;> simp +decide

/-- A dialect that writes the operator of a rule, when it has no form for it, writes one line. -/
def Rule.OnOneLine (d : Dialect) (r : Rule) : Prop :=
  d = .ink → Unbroken r.operator

namespace Rule

theorem unbroken_compare (d : Dialect) (r : Rule) {symbol : String} (hs : Unbroken symbol) :
    Unbroken (r.compare d symbol) := by
  have hl := Literal.unbroken_ofJson d.unbroken_nullWord r.value
  simp +decide [compare, ref, literal, d.unbroken_reference, hl, hs]

theorem unbroken_expression? (d : Dialect) (r : Rule) : ∀ t ∈ r.expression? d, Unbroken t := by
  have hr : Unbroken (r.ref d) := d.unbroken_reference r.sheet r.name
  have hl : Unbroken (r.literal d) := Literal.unbroken_ofJson d.unbroken_nullWord r.value
  have hsymbol := Operator.unbroken_symbol r.operator
  unfold expression?
  intro t ht
  split at ht
  · rename_i symbol ho
    rw [ho] at hsymbol
    exact Option.some.inj ht ▸ unbroken_compare d r (hsymbol symbol rfl)
  · refine Option.some.inj ht ▸ unbroken_compare d r ?_
    cases d <;> decide
  · exact Option.some.inj ht ▸ Dialect.unbroken_isTrue hr
  · exact Option.some.inj ht ▸ Dialect.unbroken_isFalse hr
  · exact Dialect.unbroken_isNil? hr t ht
  · refine Option.some.inj ht ▸ unbroken_append.mpr ⟨hr, ?_⟩
    decide
  · exact Dialect.unbroken_textTest? hr hl _ t ht
  · rename_i symbol ho
    rw [ho] at hsymbol
    split at ht
    · exact Option.some.inj ht ▸ unbroken_compare d r (hsymbol symbol rfl)
    · cases ht
  · cases ht

theorem unbroken_compile (d : Dialect) (r : Rule) :
    (∀ t ∈ (r.compile d).value, Unbroken t) ↔ r.OnOneLine d := by
  rw [compile_value, OnOneLine]
  cases he : r.expression? d with
  | some t =>
    have ho : Operator.ofName r.operator ≠ .other := by
      intro ho
      simp [expression?, ho] at he
    simp [unbroken_expression? d r t he, Operator.unbroken_of_ofName ho]
  | none =>
    cases d <;> simp +decide [Dialect.placeholder?]

end Rule

end Rules

namespace Condition

section Compile

variable {d : Dialect} {logic : Logic} {parts : List String} {stored : Option Json}

theorem unbroken_parenthesize (s : String) : Unbroken (parenthesize s) ↔ Unbroken s := by
  simp +decide [parenthesize]

theorem unbroken_join (d : Dialect) (logic : Logic) (parts : List String) :
    Unbroken (join d logic parts) ↔ ∀ t ∈ parts, Unbroken t := by
  cases logic with
  | all => exact unbroken_intercalate (by cases d <;> decide) parts
  | any =>
    rw [join, unbroken_intercalate (by cases d <;> decide)]
    split
    · rw [List.forall_mem_map]
      refine forall₂_congr fun t _ => ?_
      split
      · exact Iff.rfl
      · exact unbroken_parenthesize t
    · exact Iff.rfl

theorem unbroken_grouped (d : Dialect) (logic : Logic) (parts : List String) :
    (∀ t ∈ grouped d logic parts, Unbroken t) ↔ ∀ t ∈ parts, Unbroken t := by
  unfold grouped
  split
  · simp
  · simp
  · rw [← unbroken_join d logic, ← unbroken_parenthesize]
    simp

theorem unbroken_compileRules (d : Dialect) (rs : List Rule) :
    (∀ t ∈ (compileRules d rs).value, Unbroken t) ↔ ∀ r ∈ rs, r.OnOneLine d := by
  induction rs with
  | nil => simp [compileRules, pure]
  | cons r rs ih =>
    have h : (compileRules d (r :: rs)).value =
        (r.compile d).value.toList ++ (compileRules d rs).value := rfl
    rw [h, List.forall_mem_append, ih, List.forall_mem_cons, ← r.unbroken_compile d]
    simp only [Option.mem_toList, Option.mem_def]

theorem unbroken_compileGroups {cs : List Condition}
    (ih : ∀ c ∈ cs, (∀ t ∈ (compileGroup d c).value, Unbroken t) ↔ ∀ r ∈ c.flat, r.OnOneLine d) :
    (∀ t ∈ (compileGroups d cs).value, Unbroken t) ↔ ∀ r ∈ flatAll cs, r.OnOneLine d := by
  rw [compileGroups_value, flatAll_eq, List.forall_mem_flatMap, List.forall_mem_flatMap]
  refine forall₂_congr fun c hc => ?_
  rw [← ih c hc]
  simp only [Option.mem_toList, Option.mem_def]

theorem unbroken_compileGroup (d : Dialect) (c : Condition) :
    (∀ t ∈ (compileGroup d c).value, Unbroken t) ↔ ∀ r ∈ c.flat, r.OnOneLine d := by
  induction c using Condition.induct with
  | hr logic rs =>
    rw [flat, ← unbroken_compileRules]
    exact unbroken_grouped d logic _
  | hg logic cs ih =>
    rw [flat, ← unbroken_compileGroups ih]
    exact unbroken_grouped d logic _

/-- Only the operators of rules can break the line of a condition. -/
theorem unbroken_compile (d : Dialect) (c : Condition) :
    Unbroken (c.compile d).value ↔ ∀ r ∈ c.flat, r.OnOneLine d := by
  cases c with
  | rules logic rs => exact (unbroken_join d logic _).trans (unbroken_compileRules d rs)
  | groups logic cs =>
    refine (unbroken_join d logic _).trans (unbroken_compileGroups fun c _ => ?_)
    exact unbroken_compileGroup d c

theorem unbroken_guard? (d : Dialect) (stored : Option Json) :
    (∀ t ∈ (guard? d stored).value, Unbroken t) ↔ ∀ r ∈ storedRules stored, r.OnOneLine d := by
  rcases guard?_cases d stored with ⟨c, hrules, hguard, -⟩ | ⟨hrules, hguard, -⟩
  · rw [hguard, hrules, ← unbroken_compile, guard?.given]
    split
    · rename_i he
      simp [he, Unbroken]
    · simp
  · simp [hguard, hrules]

theorem unbroken_caseGuard (d : Dialect) (stored : Option Json) (id : String) :
    (∀ t ∈ (caseGuard d stored id).value, Unbroken t) ↔
      ∀ r ∈ storedRule? stored id, r.OnOneLine d := by
  rw [caseGuard_eq]
  cases storedRule? stored id with
  | none => simp [pure]
  | some r => simpa using r.unbroken_compile d

end Compile

end Condition

section Guards

variable {d : Dialect}

namespace Branching

theorem unbroken_fallback (d : Dialect) (b : Branching) (i : Nat) :
    ∀ t ∈ (b.fallback d i).expr?, Unbroken t := by
  unfold fallback
  split
  · simp [Guard.expr?]
  · cases d <;> simp +decide

theorem unbroken_switchGuard (d : Dialect) (b : Branching) (c : Case) (i : Nat) :
    (∀ t ∈ (b.switchGuard d c i).value.expr?, Unbroken t) ↔
      ∀ r ∈ c.id.bind (Condition.storedRule? b.condition), r.OnOneLine d := by
  have hg : (∀ t ∈ ((c.id.map fun id => Condition.caseGuard d b.condition id).getD
        (pure none)).value, Unbroken t) ↔
      ∀ r ∈ c.id.bind (Condition.storedRule? b.condition), r.OnOneLine d := by
    cases c.id with
    | none => simp [pure]
    | some id => exact Condition.unbroken_caseGuard d b.condition id
  have hfalse : Unbroken d.falseLiteral := by cases d <;> decide
  rw [← hg]
  simp only [switchGuard, bind, pure]
  generalize ((c.id.map fun id => Condition.caseGuard d b.condition id).getD
    ⟨none, Notes.none⟩).value = guard
  cases guard with
  | none =>
    cases i with
    | zero => simp [Guard.expr?, hfalse]
    | succ i => exact iff_of_true (b.unbroken_fallback d (i + 1)) (by simp)
  | some t => cases i <;> exact Iff.rfl

theorem unbroken_outcomeGuard (d : Dialect) (b : Branching) (c : Case) (i : Nat) :
    (∀ t ∈ (b.outcomeGuard d c i).value.expr?, Unbroken t) ↔
      ∀ r ∈ if i = 0 then Condition.storedRules b.condition else [], r.OnOneLine d := by
  cases i with
  | zero =>
    have hnegate : ∀ t, Unbroken (d.negate (parenthesize t)) ↔ Unbroken t :=
      fun t => (d.unbroken_negate _).trans (Condition.unbroken_parenthesize t)
    have htrue : Unbroken d.trueLiteral := by cases d <;> decide
    rw [if_pos rfl, ← Condition.unbroken_guard?]
    simp only [outcomeGuard, bind, pure, Guard.expr?]
    cases (Condition.guard? d b.condition).value with
    | none => split <;> simp [hnegate, htrue]
    | some t => split <;> simp [hnegate]
  | succ i => exact iff_of_true (b.unbroken_fallback d (i + 1)) (by simp)

/-- Only the operators of the rules that it is made of can break the line of a guard. -/
theorem unbroken_guard (d : Dialect) (b : Branching) (c : Case) (i : Nat) :
    (∀ t ∈ (b.guard d c i).value.expr?, Unbroken t) ↔ ∀ r ∈ b.rulesOf c i, r.OnOneLine d := by
  unfold guard rulesOf
  split
  · rw [unbroken_switchGuard]
    simp only [Option.mem_toList, Option.mem_def]
  · exact unbroken_outcomeGuard d b c i

end Branching

end Guards

end StoryFlow
