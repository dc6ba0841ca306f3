import Mathlib.Data.List.Basic
import StoryFlow.Text.Identifier

/-! # Characters of identifiers

What is turned into an identifier consists of letters, digits and underscores. It may still be
empty or start with a digit; a guard that does not is put in front of the digit. What consists of
these characters already is its own identifier.
-/

namespace StoryFlow.Text

variable {s t guard : String} {c : Char} {cs : List Char}

/-- Letters, digits and the underscore lie in ASCII, behind the space. -/
theorem toNat_of_isWordChar (h : isWordChar c) : 32 < c.toNat ∧ c.toNat < 0x80 := by
  rw [isWordChar] at h
  delta Char.isAlphanum Char.isAlpha Char.isUpper Char.isLower Char.isDigit at h
  simp only [Bool.or_eq_true, Bool.and_eq_true, decide_eq_true_eq, beq_iff_eq,
    UInt32.le_iff_toNat_le, ge_iff_le] at h
  change (((65 ≤ c.toNat ∧ c.toNat ≤ 90) ∨ (97 ≤ c.toNat ∧ c.toNat ≤ 122)) ∨
    (48 ≤ c.toNat ∧ c.toNat ≤ 57)) ∨ _ at h
  rcases h with h | rfl
  · omega
  · decide

theorem isBlank_of_toNat (h : 32 < c.toNat ∧ c.toNat < 0x80) : isBlank c = false := by
  simp only [isBlank, Bool.or_eq_false_iff, Bool.and_eq_false_imp, beq_eq_false_iff_ne,
    decide_eq_true_eq, decide_eq_false_iff_not]
  omega

/-- Decomposition leaves ASCII alone. -/
theorem transliterate_of_ascii (h : ∀ c ∈ cs, c.toNat < 0x80) : transliterate cs = cs := by
  have hs : ∀ c ∈ cs, spelling c = [c] := fun c hc => if_pos (h c hc)
  rw [transliterate, List.flatMap_congr hs, List.flatMap_singleton']

/-- The text holds letters, digits and underscores only. -/
def IsWord (s : String) : Prop :=
  ∀ c ∈ s.toList, isWordChar c

instance : DecidablePred IsWord := fun s =>
  List.decidableBAll (fun c => isWordChar c = true) s.toList

/-- A name that scripts can hold. -/
structure IsIdentifier (s : String) : Prop where
  filled : s ≠ ""
  word : IsWord s
  lead : leadsWithDigit s = false

theorem isIdentifier_iff : IsIdentifier s ↔ s ≠ "" ∧ IsWord s ∧ leadsWithDigit s = false :=
  ⟨fun h => ⟨h.filled, h.word, h.lead⟩, fun ⟨hf, hw, hl⟩ => ⟨hf, hw, hl⟩⟩

instance : DecidablePred IsIdentifier := fun _ => decidable_of_iff' _ isIdentifier_iff

theorem isWord_append : IsWord (s ++ t) ↔ IsWord s ∧ IsWord t := by
  simp only [IsWord, String.toList_append, List.forall_mem_append]

theorem isWord_identifier (s : String) : IsWord (identifier s) := by
  intro c hc
  rw [identifier, onChars, String.toList_ofList] at hc
  obtain ⟨a, -, hc⟩ := List.mem_flatMap.mp hc
  unfold identifierChar at hc
  split at hc
  · obtain rfl := List.mem_singleton.mp hc
    decide
  · split at hc
    · rename_i hw
      obtain rfl := List.mem_singleton.mp hc
      exact hw
    · simp at hc

theorem identifierChar_of_isWordChar (h : isWordChar c) : identifierChar c = [c] := by
  have hne (d : Char) (hd : isWordChar d = false) : c ≠ d := fun he => by simp [he, hd] at h
  have hb := isBlank_of_toNat (toNat_of_isWordChar h)
  simp [identifierChar, hne '.' rfl, hne '-' rfl, hb, h]

/-- A word is its own identifier. -/
theorem identifier_of_isWord (h : IsWord s) : identifier s = s := by
  have hascii : ∀ c ∈ s.toList, c.toNat < 0x80 := fun c hc => (toNat_of_isWordChar (h c hc)).2
  have hkeep : s.toList.flatMap identifierChar = s.toList := by
    rw [List.flatMap_congr fun c hc => identifierChar_of_isWordChar (h c hc),
      List.flatMap_singleton']
  rw [identifier, onChars, identifierChars, transliterate_of_ascii hascii, hkeep,
    String.ofList_toList]

theorem isWord_guardDigit (hg : IsWord guard) : IsWord (guardDigit guard s) ↔ IsWord s := by
  unfold guardDigit
  split
  · rw [isWord_append, and_iff_right hg]
  · exact Iff.rfl

theorem isWord_toString (n : Nat) : IsWord (toString n) := by
  intro c hc
  rw [Nat.toString_eq_repr, Nat.toList_repr] at hc
  have hd := Nat.isDigit_of_mem_toDigits (by decide) (by decide) hc
  simp [isWordChar, Char.isAlphanum, hd]

theorem leadsWithDigit_append (hs : s ≠ "") (t : String) :
    leadsWithDigit (s ++ t) = leadsWithDigit s := by
  cases hc : s.toList with
  | nil => exact absurd (String.toList_eq_nil_iff.mp hc) hs
  | cons c cs => simp [leadsWithDigit, hc]

theorem leadsWithDigit_guardDigit (hg : IsIdentifier guard) (s : String) :
    leadsWithDigit (guardDigit guard s) = false := by
  unfold guardDigit
  split
  · rw [leadsWithDigit_append hg.filled, hg.lead]
  · rename_i hl
    exact Bool.eq_false_iff.mpr hl

end StoryFlow.Text
