import Mathlib.Data.List.Infix
import StoryFlow.Text.Replace

/-! # Replaced stretches

A text is taken apart into the matches of a word, which are replaced, and the characters that start
no match, which stay. A word is replaced exactly where it stands, so a text without it stays as it
is, and one with it becomes shorter when something shorter comes into its place.
-/

namespace StoryFlow.Text

variable {found : List Char → Nat} {new word run cs : List Char} {c : Char}

theorem substituteFrom_eq_drop (found : List Char → Nat) (new : List Char) (n : Nat) :
    substituteFrom found new n cs = substitute found new (cs.drop n) := by
  induction cs generalizing n with
  | nil => cases n <;> rfl
  | cons c cs ih =>
    cases n with
    | zero => rfl
    | succ n => exact ih n

theorem substitute_cons (h : found (c :: cs) = 0) (new : List Char) :
    substitute found new (c :: cs) = c :: substitute found new cs := by
  rw [substitute, substituteFrom, h]
  rfl

/-- Matches that are replaced by something leave something of every text. -/
theorem substitute_eq_nil (hn : new ≠ []) : substitute found new cs = [] ↔ cs = [] := by
  cases cs with
  | nil => exact iff_of_true rfl rfl
  | cons c cs =>
    refine iff_of_false ?_ (List.cons_ne_nil c cs)
    rw [substitute, substituteFrom]
    split
    · exact List.cons_ne_nil _ _
    · exact List.append_ne_nil_of_left_ne_nil hn _

theorem singleLine_eq_empty {s : String} : singleLine s = "" ↔ s = "" := by
  rw [singleLine, onChars, String.ofList_eq_empty_iff, substitute_eq_nil (List.cons_ne_nil _ _),
    String.toList_eq_nil_iff]

/-- What no match starts with stays. -/
theorem substitute_append (h : ∀ c ∈ run, ∀ ds, found (c :: ds) = 0) (new cs : List Char) :
    substitute found new (run ++ cs) = run ++ substitute found new cs := by
  induction run with
  | nil => rfl
  | cons c run ih =>
    rw [List.forall_mem_cons] at h
    rw [List.cons_append, substitute_cons (h.1 _), ih h.2, List.cons_append]

theorem substitute_eq_self (h : ∀ c ∈ cs, ∀ ds, found (c :: ds) = 0) (new : List Char) :
    substitute found new cs = cs := by
  have happend := substitute_append h new []
  rwa [List.append_nil, show substitute found new [] = [] from rfl, List.append_nil] at happend

section Literal

theorem literal_eq_zero (h : ¬ word <+: cs) : literal word cs = 0 :=
  if_neg fun hp => h (List.isPrefixOf_iff_prefix.mp hp)

theorem substitute_literal_cons (h : ¬ word <+: c :: cs) (new : List Char) :
    substitute (literal word) new (c :: cs) = c :: substitute (literal word) new cs :=
  substitute_cons (literal_eq_zero h) new

theorem substitute_literal_append (hw : word ≠ []) (new cs : List Char) :
    substitute (literal word) new (word ++ cs) = new ++ substitute (literal word) new cs := by
  obtain ⟨c, word, rfl⟩ := List.exists_cons_of_ne_nil hw
  have hl : literal (c :: word) (c :: word ++ cs) = word.length + 1 :=
    if_pos (List.isPrefixOf_iff_prefix.mpr (List.prefix_append _ _))
  rw [List.cons_append] at hl ⊢
  rw [substitute, substituteFrom, hl]
  simp [substituteFrom_eq_drop]

/-- A text is empty, or starts with a word, or starts with a character that starts no match. -/
theorem literal_induction {motive : List Char → Prop} (hw : word ≠ []) (nil : motive [])
    (found : ∀ cs, motive cs → motive (word ++ cs))
    (other : ∀ c cs, ¬ word <+: c :: cs → motive cs → motive (c :: cs)) (cs : List Char) :
    motive cs := by
  by_cases h : word <+: cs
  · obtain ⟨rest, hrest⟩ := h
    exact hrest ▸ found rest (literal_induction hw nil found other rest)
  · cases cs with
    | nil => exact nil
    | cons c cs => exact other c cs h (literal_induction hw nil found other cs)
termination_by cs.length
decreasing_by
  · have hlength := List.length_pos_iff.mpr hw
    rw [← hrest, List.length_append]
    omega
  · exact Nat.lt_succ_self _

theorem substitute_literal_eq_self (h : ¬ word <:+: cs) (new : List Char) :
    substitute (literal word) new cs = cs := by
  induction cs with
  | nil => rfl
  | cons c cs ih =>
    rw [List.infix_cons_iff, not_or] at h
    rw [substitute_literal_cons h.1, ih h.2]

/-- Something shorter in the place of a word makes the text shorter if the word is in it. -/
theorem length_substitute_literal (hn : new.length < word.length) (cs : List Char) :
    (substitute (literal word) new cs).length ≤ cs.length ∧
      (word <:+: cs → (substitute (literal word) new cs).length < cs.length) := by
  have hw : word ≠ [] := List.ne_nil_of_length_pos (by omega)
  induction cs using literal_induction hw with
  | nil =>
    refine ⟨Nat.le_refl _, fun h => ?_⟩
    exact absurd (List.infix_nil.mp h) hw
  | found cs ih =>
    have hlt : (substitute (literal word) new (word ++ cs)).length < (word ++ cs).length := by
      rw [substitute_literal_append hw, List.length_append, List.length_append]
      omega
    exact ⟨hlt.le, fun _ => hlt⟩
  | other c cs hp ih =>
    rw [substitute_literal_cons hp, List.length_cons, List.length_cons, List.infix_cons_iff,
      or_iff_right hp]
    exact ⟨Nat.succ_le_succ ih.1, fun h => Nat.succ_lt_succ (ih.2 h)⟩

end Literal

end StoryFlow.Text
