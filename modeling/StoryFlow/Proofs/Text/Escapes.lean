import Mathlib.Data.List.Infix
import StoryFlow.Lint.Scan

/-! # Backslashes

In an escaped text a backslash stands in front of the character that it escapes, which may be
another backslash. The text is read by dropping each of them and keeping the character behind it. A
word stands bare in the text where its first character is not escaped.
-/

namespace StoryFlow.Text

/-- Is what follows a text escaped, when the start of the text is or is not? -/
def escapesNext : Bool → List Char → Bool
  | escaped, [] => escaped
  | escaped, c :: cs => escapesNext (!escaped && c == '\\') cs

def unescapeFrom : Bool → List Char → List Char
  | _, [] => []
  | true, c :: cs => c :: unescapeFrom false cs
  | false, c :: cs => if c = '\\' then unescapeFrom true cs else c :: unescapeFrom false cs

/-- Drops each backslash and keeps the character behind it. -/
def unescape (cs : List Char) : List Char :=
  unescapeFrom false cs

def BareFrom (escaped : Bool) (word cs : List Char) : Prop :=
  ∃ before after, cs = before ++ (word ++ after) ∧ escapesNext escaped before = false

/-- A word stands in a text at a place where it is not escaped. -/
def Bare (word cs : List Char) : Prop :=
  BareFrom false word cs

section Bare

variable {escaped : Bool} {a c ch : Char} {cs word : List Char}

theorem not_bareFrom_nil : ¬ BareFrom escaped (a :: word) [] := by
  rintro ⟨before, after, h, -⟩
  simp at h

theorem bareFrom_cons : BareFrom escaped word (c :: cs) ↔
    escaped = false ∧ word <+: c :: cs ∨ BareFrom (!escaped && c == '\\') word cs := by
  constructor
  · rintro ⟨before, after, h, he⟩
    cases before with
    | nil => exact Or.inl ⟨he, after, h.symm⟩
    | cons b before =>
      obtain ⟨rfl, rfl⟩ := List.cons.inj h
      exact Or.inr ⟨before, after, rfl, he⟩
  · rintro (⟨he, after, h⟩ | ⟨before, after, rfl, he⟩)
    · exact ⟨[], after, h.symm, he⟩
    · exact ⟨c :: before, after, rfl, he⟩

theorem bareFrom_escaped : BareFrom true word (c :: cs) ↔ Bare word cs := by
  simp [bareFrom_cons, Bare]

theorem not_bare_nil : ¬ Bare (a :: word) [] :=
  not_bareFrom_nil

theorem bare_slash (ha : a ≠ '\\') :
    Bare (a :: word) ('\\' :: cs) ↔ BareFrom true (a :: word) cs := by
  rw [Bare, bareFrom_cons, or_iff_right]
  · rfl
  · exact fun h => ha (List.cons_prefix_cons.mp h.2).1

/-- A word that starts with no backslash stands bare in neither a backslash nor the character that
it escapes. -/
theorem bare_slash_cons (ha : a ≠ '\\') :
    Bare (a :: word) ('\\' :: c :: cs) ↔ Bare (a :: word) cs := by
  rw [bare_slash ha, bareFrom_escaped]

theorem bare_cons_of_ne (hc : c ≠ '\\') :
    Bare word (c :: cs) ↔ word <+: c :: cs ∨ Bare word cs := by
  simp [Bare, bareFrom_cons, beq_false_of_ne hc]

/-- One more backslash in front of a text that starts with none leaves no other word bare. -/
theorem Bare.of_slash (h : Bare (a :: word) ('\\' :: cs)) (ha : a ≠ '\\')
    (hc : cs.head? ≠ some '\\') : Bare (a :: word) cs := by
  cases cs with
  | nil => exact absurd ((bare_slash ha).mp h) not_bareFrom_nil
  | cons c cs =>
    have hne : c ≠ '\\' := fun he => hc (congrArg some he)
    exact (bare_cons_of_ne hne).mpr (Or.inr ((bare_slash_cons ha).mp h))

/-- The characters that are counted are those that stand bare. -/
theorem countUnescaped_eq_zero_iff (hch : ch ≠ '\\') (cs : List Char) :
    Lint.countUnescaped ch cs = 0 ↔ ¬ Bare [ch] cs := by
  induction cs using Lint.countUnescaped.induct ch with
  | case1 => simp [Lint.countUnescaped, not_bare_nil]
  | case2 => simp [Lint.countUnescaped, bare_slash hch, not_bareFrom_nil]
  | case3 hc => simp [Lint.countUnescaped, bare_cons_of_ne hch, hch]
  | case4 c hc hd =>
    simp [Lint.countUnescaped, bare_cons_of_ne hc, hc, hd, Ne.symm hd, not_bare_nil]
  | case5 d cs ih => rwa [bare_slash_cons hch]
  | case6 c d cs hc ih =>
    rw [Lint.countUnescaped, if_neg hc, bare_cons_of_ne hc]
    by_cases hd : c = ch
    · simp [hd]
    · simp [hd, Ne.symm hd, ih]

end Bare

section Reading

variable {cs : List Char}

/-- A text that starts with no backslash is read as before with one more in front. -/
theorem unescape_slash (hc : cs.head? ≠ some '\\') : unescape ('\\' :: cs) = unescape cs := by
  cases cs with
  | nil => rfl
  | cons c cs =>
    have hne : c ≠ '\\' := fun h => hc (congrArg some h)
    simp [unescape, unescapeFrom, hne]

theorem unescape_slash_cons (c : Char) (cs : List Char) :
    unescape ('\\' :: c :: cs) = c :: unescape cs := rfl

theorem unescape_cons_of_ne {c : Char} (hc : c ≠ '\\') (cs : List Char) :
    unescape (c :: cs) = c :: unescape cs :=
  if_neg hc

theorem mem_unescapeFrom {a : Char} (ha : a ≠ '\\') (escaped : Bool) :
    a ∈ unescapeFrom escaped cs ↔ a ∈ cs := by
  fun_induction unescapeFrom escaped cs with
  | case1 => exact Iff.rfl
  | case2 c cs ih => rw [List.mem_cons, List.mem_cons, ih]
  | case3 cs ih => rw [ih, List.mem_cons, or_iff_right ha]
  | case4 c cs hc ih => rw [List.mem_cons, List.mem_cons, ih]

/-- Reading drops backslashes only. -/
theorem forall_mem_unescape {p : Char → Prop} (hp : p '\\') :
    (∀ c ∈ unescape cs, p c) ↔ ∀ c ∈ cs, p c := by
  refine forall_congr' fun a => ?_
  by_cases ha : a = '\\'
  · exact iff_of_true (fun _ => ha ▸ hp) fun _ => ha ▸ hp
  · rw [unescape, mem_unescapeFrom ha]

end Reading

/-- What is written for a text can be read back. Some words never stand bare in it, others never
stand in it at all, and there are characters that it does not start with. -/
structure ExactlyEscaped (text written : List Char) (shielded absent : List (List Char))
    (starts : List Char) : Prop where
  read : unescape written = text
  shielded : ∀ word ∈ shielded, ¬ Bare word written
  absent : ∀ word ∈ absent, ¬ word <:+: written
  starts : ∀ c ∈ starts, written.head? ≠ some c

end StoryFlow.Text
