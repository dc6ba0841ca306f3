import Mathlib.Data.List.Nodup
import StoryFlow.FreshName

/-! # Free names are free

The numbered names of a base differ, so among one more of them than there are taken names one is
free. Which one it is depends on the taken names, but not on their order.
-/

namespace StoryFlow

variable {taken : List String} {base : String}

theorem toString_inj {m n : Nat} (h : toString m = toString n) : m = n := by
  have hd := congrArg (fun s => Nat.ofDigitChars 10 s.toList 0) h
  simpa [Nat.toString_eq_ofList_toDigits] using hd

theorem numbered_inj {m n : Nat}
    (h : base ++ "_" ++ toString m = base ++ "_" ++ toString n) : m = n :=
  toString_inj ((String.append_right_inj _).mp h)

/-- Different names that are all taken are at most as many as the taken ones. -/
theorem le_length_of_forall_mem {names : Nat → String} (hn : ∀ a b, names a = names b → a = b)
    {k : Nat} (h : ∀ m < k, names m ∈ taken) : k ≤ taken.length := by
  have hd : ((List.range k).map names).Nodup := List.nodup_range.map hn
  have hs : (List.range k).map names ⊆ taken := by
    intro name hname
    obtain ⟨m, hm, rfl⟩ := List.mem_map.mp hname
    exact h m (List.mem_range.mp hm)
  simpa using hd.length_le_of_subset hs

/-- The numbers are tried in turn: all that come before the chosen one are taken, and only the last
one that is tried may be taken itself. -/
theorem firstNumbered_first (taken : List String) (base : String) (tries n : Nat) :
    ∃ k ≤ tries, firstNumbered taken base tries n = base ++ "_" ++ toString (n + k) ∧
      (∀ m < k, base ++ "_" ++ toString (n + m) ∈ taken) ∧
      (k < tries → base ++ "_" ++ toString (n + k) ∉ taken) := by
  induction tries generalizing n with
  | zero => exact ⟨0, Nat.le_refl 0, rfl, by simp, by simp⟩
  | succ tries ih =>
    by_cases ht : base ++ "_" ++ toString n ∈ taken
    · obtain ⟨k, hk, he, hbefore, hfree⟩ := ih (n + 1)
      rw [Nat.add_assoc, Nat.add_comm 1] at he hfree
      refine ⟨k + 1, by omega, by rw [firstNumbered, if_pos ht, he], fun m hm => ?_,
        fun h => hfree (by omega)⟩
      cases m with
      | zero => exact ht
      | succ m =>
        have hm := hbefore m (by omega)
        rwa [Nat.add_assoc, Nat.add_comm 1] at hm
    · exact ⟨0, by omega, by rw [firstNumbered, if_neg ht]; rfl, by simp, fun _ => ht⟩

theorem firstNumbered_not_mem (taken : List String) (base : String) (n : Nat) :
    firstNumbered taken base taken.length n ∉ taken := by
  obtain ⟨k, hk, he, hbefore, hfree⟩ := firstNumbered_first taken base taken.length n
  intro h
  rw [he] at h
  obtain rfl : k = taken.length := by
    by_contra hne
    exact hfree (by omega) h
  have hn : ∀ a b, base ++ "_" ++ toString (n + a) = base ++ "_" ++ toString (n + b) → a = b :=
    fun a b hab => Nat.add_left_cancel (numbered_inj hab)
  have hall : ∀ m < taken.length + 1, base ++ "_" ++ toString (n + m) ∈ taken := by
    intro m hm
    rcases Nat.lt_succ_iff_lt_or_eq.mp hm with hm | rfl
    · exact hbefore m hm
    · exact h
  exact absurd (le_length_of_forall_mem hn hall) (by omega)

theorem firstNumbered_eq (taken : List String) (base : String) (tries n : Nat) :
    ∃ k : Nat, firstNumbered taken base tries n = base ++ "_" ++ toString k := by
  obtain ⟨k, -, he, -⟩ := firstNumbered_first taken base tries n
  exact ⟨n + k, he⟩

theorem freshName_not_mem (taken : List String) (base : String) :
    freshName taken base ∉ taken := by
  unfold freshName
  split
  · exact firstNumbered_not_mem taken base 2
  · assumption

theorem freshName_eq (taken : List String) (base : String) :
    freshName taken base = base ∨ ∃ k : Nat, freshName taken base = base ++ "_" ++ toString k := by
  unfold freshName
  split
  · exact Or.inr (firstNumbered_eq taken base taken.length 2)
  · exact Or.inl rfl

section Order

variable {taken' : List String}

theorem firstNumbered_perm (h : taken.Perm taken') (base : String) (tries n : Nat) :
    firstNumbered taken base tries n = firstNumbered taken' base tries n := by
  induction tries generalizing n with
  | zero => rfl
  | succ tries ih => simp only [firstNumbered, h.mem_iff, ih]

/-- A free name does not depend on the order of the taken ones. -/
theorem freshName_perm (h : taken.Perm taken') (base : String) :
    freshName taken base = freshName taken' base := by
  simp only [freshName, h.mem_iff, h.length_eq, firstNumbered_perm h]

end Order

end StoryFlow
