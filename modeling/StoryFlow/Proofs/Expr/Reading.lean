import StoryFlow.Expr.Compile

/-! # Reading compiled conditions

A compiled condition is a text of rules, parentheses and the words of the dialect for `and` and
`or`. Its tokens are read by a grammar in which `and` binds tighter than `or`, and the grammar
reads no sequence of tokens in two ways.
-/

namespace StoryFlow.Condition

/-- A part of a compiled condition; a rule counts as one part, whatever its text. -/
inductive Token where
  | rule (r : Rule)
  | left
  | right
  | andWord
  | orWord

/-- A compiled condition as it is understood, with its parentheses. -/
inductive Formula where
  | rule (r : Rule)
  | paren (e : Formula)
  | both (a b : Formula)
  | either (a b : Formula)

namespace Token

variable (d : Dialect)

def text : Token → String
  | rule r => (r.compile d).value.getD ""
  | left => "("
  | right => ")"
  | andWord => d.andWord
  | orWord => d.orWord

/-- The text that tokens make up. -/
def spell : List Token → String
  | [] => ""
  | t :: ts => t.text d ++ spell ts

def rule? : Token → Option Rule
  | rule r => some r
  | _ => none

def rules (ts : List Token) : List Rule :=
  ts.filterMap rule?

theorem spell_append (ts us : List Token) : spell d (ts ++ us) = spell d ts ++ spell d us := by
  induction ts with
  | nil => simp [spell]
  | cons t ts ih => simp [spell, ih, String.append_assoc]

@[simp] theorem rules_append (ts us : List Token) : rules (ts ++ us) = rules ts ++ rules us :=
  List.filterMap_append

end Token

/-- What an expression may be without parentheses: operands of `or`, of `and`, or one operand. -/
inductive Binding where
  | any | all | atom

/-- Tokens are read as a formula that binds at least so tightly. -/
inductive Reads : Binding → List Token → Formula → Prop where

  | rule {r} : Reads .atom [.rule r] (.rule r)

  | paren {ts e} : Reads .any ts e → Reads .atom (.left :: (ts ++ [.right])) (.paren e)

  | ofAtom {ts e} : Reads .atom ts e → Reads .all ts e

  | both {ts us a b} : Reads .all ts a → Reads .atom us b →
      Reads .all (ts ++ .andWord :: us) (.both a b)

  | ofAll {ts e} : Reads .all ts e → Reads .any ts e

  | either {ts us a b} : Reads .any ts a → Reads .all us b →
      Reads .any (ts ++ .orWord :: us) (.either a b)

section Reader

/-- What stands before an operand: operands of `or`, and then operands of `and`. -/
structure Frame where
  any : Option Formula
  all : Option Formula

namespace Frame

def empty : Frame := ⟨none, none⟩

/-- Adds the last operand of an `and`. -/
def conj (f : Frame) (a : Formula) : Formula :=
  f.all.elim a (.both · a)

/-- Adds the last operand of all. -/
def disj (f : Frame) (a : Formula) : Formula :=
  f.any.elim (f.conj a) (.either · (f.conj a))

end Frame

mutual

/-- Reads on where an operand is expected, with the frames of the open parentheses. -/
def readOperand (stack : List Frame) (f : Frame) : List Token → Option Formula
  | .rule r :: ts => readWord stack f (.rule r) ts
  | .left :: ts => readOperand (f :: stack) .empty ts
  | _ => none

def readWord (stack : List Frame) (f : Frame) (a : Formula) : List Token → Option Formula
  | [] => if stack.isEmpty then some (f.disj a) else none
  | .andWord :: ts => readOperand stack ⟨f.any, some (f.conj a)⟩ ts
  | .orWord :: ts => readOperand stack ⟨some (f.disj a), none⟩ ts
  | .right :: ts =>
    match stack with
    | [] => none
    | g :: stack => readWord stack g (.paren (f.disj a)) ts
  | _ => none

end

/-- Where the reader is, after a formula that it started on at the frame `f`. -/
def Formula.Leaves (binding : Binding) (f g : Frame) (e a : Formula) : Prop :=
  match binding with
  | .atom => g = f ∧ a = e
  | .all => g.any = f.any ∧ g.conj a = e
  | .any => g.disj a = e

/-- The reader follows the grammar. -/
theorem Reads.readOperand {binding : Binding} {ts : List Token} {e : Formula}
    (h : Reads binding ts e) (f : Frame) (hf : binding ≠ .atom → f.all = none)
    (hg : binding = .any → f.any = none) :
    ∃ g a, Formula.Leaves binding f g e a ∧ ∀ stack rest,
      Condition.readOperand stack f (ts ++ rest) = readWord stack g a rest := by
  induction h generalizing f with
  | @rule r =>
    exact ⟨f, .rule r, ⟨rfl, rfl⟩, fun stack rest => by simp [Condition.readOperand]⟩
  | @paren ts e _ ih =>
    obtain ⟨g, a, hl, hr⟩ := ih .empty (fun _ => rfl) (fun _ => rfl)
    refine ⟨f, .paren e, ⟨rfl, rfl⟩, fun stack rest => ?_⟩
    have hd : g.disj a = e := hl
    simp [Condition.readOperand, hr, readWord, hd]
  | ofAtom _ ih =>
    obtain ⟨g, a, ⟨rfl, rfl⟩, hr⟩ := ih f (by simp) (by simp)
    refine ⟨g, a, ⟨rfl, ?_⟩, hr⟩
    simp [Frame.conj, hf]
  | @both ts us x y _ _ ih ih' =>
    obtain ⟨g, a, ⟨hga, hl⟩, hr⟩ := ih f hf (by simp)
    obtain ⟨g', a', ⟨rfl, rfl⟩, hr'⟩ := ih' ⟨g.any, some (g.conj a)⟩ (by simp) (by simp)
    refine ⟨⟨g.any, some (g.conj a)⟩, a', ⟨hga, ?_⟩, fun stack rest => ?_⟩
    · rw [← hl]
      rfl
    · rw [List.append_assoc, hr, List.cons_append, readWord, hr']
  | ofAll _ ih =>
    obtain ⟨g, a, ⟨hga, hl⟩, hr⟩ := ih f (fun _ => hf (by simp)) (by simp)
    refine ⟨g, a, ?_, hr⟩
    simp [Formula.Leaves, Frame.disj, hga, hg, hl]
  | @either ts us x y _ _ ih ih' =>
    obtain ⟨g, a, hl, hr⟩ := ih f hf hg
    obtain ⟨g', a', ⟨hga, hl'⟩, hr'⟩ := ih' ⟨some (g.disj a), none⟩ (fun _ => rfl) (by simp)
    refine ⟨g', a', ?_, fun stack rest => ?_⟩
    · have hd : g.disj a = x := hl
      change g'.disj a' = .either x y
      rw [Frame.disj, hga, hl', ← hd]
      rfl
    · rw [List.append_assoc, hr, List.cons_append, readWord, hr']

/-- No tokens are read in two ways. -/
theorem Reads.unique {ts : List Token} {a b : Formula} (ha : Reads .any ts a)
    (hb : Reads .any ts b) : a = b := by
  have hread : ∀ {e}, Reads .any ts e → Condition.readOperand [] .empty ts = some e := by
    intro e h
    obtain ⟨g, x, hl, hr⟩ := h.readOperand .empty (fun _ => rfl) (fun _ => rfl)
    have := hr [] []
    rw [List.append_nil] at this
    have hd : g.disj x = e := hl
    simp [this, readWord, hd]
  exact Option.some.inj ((hread ha).symm.trans (hread hb))

end Reader

end StoryFlow.Condition
