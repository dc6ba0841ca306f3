import StoryFlow.Proofs.Expr.Meaning

/-! # Traversals of conditions

The search for a rule, the list of the sheets that are read and the compilation each walk through a
condition on their own. All of them come by its rules from left to right: the search stops at the
first one with the id, the sheets are those of all rules, and what is reported on compiling is what
is reported about each rule in turn. A dialect that drops rules reports exactly those that it drops.
-/

namespace StoryFlow

/-- The warning is about an operator that the dialect has no form for. -/
def Warning.isUnsupported : Warning → Bool
  | unsupportedOperator .. => true
  | functionRequired .. => false

namespace Notes

def ofWarnings (warnings : List Warning) : Notes :=
  ⟨warnings, []⟩

theorem append_none (a : Notes) : a ++ Notes.none = a := by
  change Notes.mk (a.warnings ++ []) (a.failures ++ []) = a
  rw [List.append_nil, List.append_nil]

theorem ofWarnings_append (ws vs : List Warning) :
    ofWarnings ws ++ ofWarnings vs = ofWarnings (ws ++ vs) :=
  rfl

end Notes

namespace Rule

variable {d : Dialect} {r : Rule}

/-- What is reported about a rule. -/
def warnings (d : Dialect) (r : Rule) : List Warning :=
  (r.compile d).notes.warnings

def isUnsupported (d : Dialect) (r : Rule) : Bool :=
  (r.warnings d).any Warning.isUnsupported

theorem notes_compile (d : Dialect) (r : Rule) :
    (r.compile d).notes = .ofWarnings (r.warnings d) := by
  unfold warnings compile
  split
  · split <;> rfl
  · rfl

theorem isUnsupported_eq : r.isUnsupported d = (r.expression? d).isNone := by
  unfold isUnsupported warnings compile
  cases r.expression? d with
  | none => rfl
  | some expr => cases r.function? d <;> rfl

/-- A rule is dropped exactly when it is reported, except where it leaves a placeholder. -/
theorem isKept_eq : r.isKept d = (d = .ink || !r.isUnsupported d) := by
  rw [isKept, compile_value, isUnsupported_eq]
  cases r.expression? d with
  | none => cases d <;> rfl
  | some expr => simp

end Rule

namespace Condition

/-- A walk through conditions that comes by the rules from left to right: what it gives for several
conditions is what it takes from their rules, put one after the other. -/
structure LeftToRight {M : Type} (take : List Rule → M) (walk : Condition → M)
    (walks : List Condition → M) : Prop where
  rules : ∀ logic rs, walk (rules logic rs) = take rs
  groups : ∀ logic cs, walk (groups logic cs) = walks cs
  nil : walks [] = take []
  cons : ∀ {c cs rs ss}, walk c = take rs → walks cs = take ss → walks (c :: cs) = take (rs ++ ss)

namespace LeftToRight

variable {M : Type} {take : List Rule → M} {walk : Condition → M} {walks : List Condition → M}

theorem walks_eq (h : LeftToRight take walk walks) {cs : List Condition}
    (hcs : ∀ c ∈ cs, walk c = take c.flat) : walks cs = take (flatAll cs) := by
  induction cs with
  | nil => exact h.nil
  | cons c cs ih =>
    obtain ⟨hc, hcs⟩ := List.forall_mem_cons.mp hcs
    exact h.cons hc (ih hcs)

theorem walk_eq (h : LeftToRight take walk walks) (c : Condition) : walk c = take c.flat := by
  induction c using Condition.induct with
  | hr logic rs => exact h.rules logic rs
  | hg logic cs ih => exact (h.groups logic cs).trans (h.walks_eq ih)

end LeftToRight

variable {d : Dialect}

theorem leftToRight_findRule (id : String) :
    LeftToRight (List.find? (·.id == some id)) (findRule id) (findRuleIn id) where
  rules _ _ := rfl
  groups _ _ := rfl
  nil := rfl
  cons hc hcs := by rw [findRuleIn, hc, hcs, List.find?_append, Option.orElse_eq_orElse,
    Option.orElse_eq_or]

theorem findRule_eq_none_iff {id : String} {c : Condition} :
    c.findRule id = none ↔ ∀ r ∈ c.flat, r.id ≠ some id := by
  simp [(leftToRight_findRule id).walk_eq c]

theorem leftToRight_sheets : LeftToRight (List.map Rule.sheet) sheets sheetsOf where
  rules _ _ := rfl
  groups _ _ := rfl
  nil := rfl
  cons hc hcs := by rw [sheetsOf, hc, hcs, List.map_append]

theorem notes_compileRules (d : Dialect) (rs : List Rule) :
    (compileRules d rs).notes = .ofWarnings (rs.flatMap (Rule.warnings d)) := by
  induction rs with
  | nil => rfl
  | cons r rs ih =>
    have hcons : (compileRules d (r :: rs)).notes =
        (r.compile d).notes ++ ((compileRules d rs).notes ++ Notes.none) := rfl
    rw [hcons, Notes.append_none, r.notes_compile, ih, Notes.ofWarnings_append, List.flatMap_cons]

theorem leftToRight_notes (d : Dialect) :
    LeftToRight (fun rs => .ofWarnings (rs.flatMap (Rule.warnings d)))
      (fun c => (compileGroup d c).notes) (fun cs => (compileGroups d cs).notes) where
  rules _ rs := (Notes.append_none _).trans (notes_compileRules d rs)
  groups _ _ := Notes.append_none _
  nil := rfl
  cons {c cs rs ss} hc hcs := by
    have hcons : (compileGroups d (c :: cs)).notes =
        (compileGroup d c).notes ++ ((compileGroups d cs).notes ++ Notes.none) := rfl
    rw [hcons, Notes.append_none, hc, hcs, Notes.ofWarnings_append, List.flatMap_append]

/-- What is reported on compiling a condition is what is reported about its rules. -/
theorem notes_compile (d : Dialect) (c : Condition) :
    (c.compile d).notes = .ofWarnings (c.flat.flatMap (Rule.warnings d)) := by
  have houter : (c.compile d).notes = (compileGroup d c).notes := by
    cases c <;> rfl
  exact houter.trans ((leftToRight_notes d).walk_eq c)

/-- The search, the sheets and the warnings of a condition are those of its rules from left to
right, also where it is read from what is stored. The expression is spelled with the rules that no
warning calls unsupported; one dialect writes the others as well. -/
theorem traversals_agree (d : Dialect) (c : Condition) (stored : Option Json) :
    (∀ id, c.findRule id = c.flat.find? (·.id == some id) ∧
      (c.findRule id = none ↔ ∀ r ∈ c.flat, r.id ≠ some id)) ∧
    c.sheets = c.flat.map Rule.sheet ∧
    (c.compile d).notes = ⟨c.flat.flatMap fun r => (r.compile d).notes.warnings, []⟩ ∧
    compileStored d stored = (read stored).map (fun c => c.elim (pure "") (compile d)) ∧
    ∃ ts, Token.spell d ts = (c.compile d).value ∧ Token.rules ts = c.flat.filter fun r =>
      d = .ink || !(r.compile d).notes.warnings.any Warning.isUnsupported := by
  refine ⟨fun id => ⟨(leftToRight_findRule id).walk_eq c, findRule_eq_none_iff⟩,
    leftToRight_sheets.walk_eq c, notes_compile d c, ?_, ?_⟩
  · rw [compileStored]
    cases read stored with
    | error e => rfl
    | ok c => cases c <;> rfl
  · obtain ⟨ts, hspell, hrules, -⟩ := exists_spell_compile d c
    refine ⟨ts, hspell, hrules.trans ?_⟩
    exact List.filter_congr fun r _ => Rule.isKept_eq

end Condition

end StoryFlow
