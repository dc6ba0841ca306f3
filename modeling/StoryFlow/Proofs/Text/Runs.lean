import Mathlib.Data.List.TakeWhile
import StoryFlow.Text.Blank

/-! # Runs of characters

A text is taken apart into a run of characters of one sort and a rest that starts with none of
them. A text is trimmed when no run of blanks stands at its start or its end.
-/

namespace StoryFlow.Text

section Runs

variable {α : Type} {r : α → Bool} {run cs : List α}

theorem takeWhile_append_of_stop (hrun : ∀ c ∈ run, r c)
    (hcs : cs.takeWhile r = []) : (run ++ cs).takeWhile r = run := by
  rw [List.takeWhile_append_of_pos hrun, hcs, List.append_nil]

theorem dropWhile_append_of_stop (hrun : ∀ c ∈ run, r c)
    (hcs : cs.takeWhile r = []) : (run ++ cs).dropWhile r = cs := by
  have happend := List.takeWhile_append_dropWhile (p := r) (l := run ++ cs)
  rw [takeWhile_append_of_stop hrun hcs] at happend
  exact List.append_cancel_left happend

/-- A text is a run of characters of one sort and a rest that starts with none of them. -/
theorem exists_run (r : α → Bool) (cs : List α) :
    ∃ run rest, cs = run ++ rest ∧ (∀ c ∈ run, r c) ∧ rest.takeWhile r = [] := by
  refine ⟨cs.takeWhile r, cs.dropWhile r, List.takeWhile_append_dropWhile.symm,
    fun c hc => List.mem_takeWhile_imp hc, ?_⟩
  cases h : cs.dropWhile r with
  | nil => rfl
  | cons c rest =>
    have hc : r c = false := by simpa [h] using List.head_dropWhile_not r (l := cs) (by simp [h])
    simp [hc]

/-- What keeps every character of a sort in its place keeps a run of them. -/
theorem append_of_cons {f : List α → List α} (hf : ∀ c, r c → ∀ cs, f (c :: cs) = c :: f cs)
    (hrun : ∀ c ∈ run, r c) (cs : List α) : f (run ++ cs) = run ++ f cs := by
  induction run with
  | nil => rfl
  | cons c run ih =>
    rw [List.forall_mem_cons] at hrun
    rw [List.cons_append, hf c hrun.1, ih hrun.2, List.cons_append]

end Runs

section Trim

variable {cs : List Char}

theorem trimStart_eq_self_iff : trimStart cs = cs ↔ ∀ c ∈ cs.head?, isBlank c = false := by
  cases cs with
  | nil => simp [trimStart]
  | cons c cs =>
    rw [trimStart, List.dropWhile_cons]
    split
    · rename_i hc
      have hne : cs.dropWhile isBlank ≠ c :: cs := fun h => by
        have hle := List.length_dropWhile_le isBlank cs
        rw [h, List.length_cons] at hle
        omega
      simp [hne, hc]
    · rename_i hc
      simpa using hc

theorem trimEnd_eq_self_iff : trimEnd cs = cs ↔ ∀ c ∈ cs.getLast?, isBlank c = false := by
  rw [trimEnd, List.reverse_eq_iff, trimStart_eq_self_iff, List.head?_reverse]

/-- Blanks at the start of a text leave its last character alone. -/
theorem trim_of_getLast (h : ∀ c ∈ cs.getLast?, isBlank c = false) : trim cs = trimStart cs := by
  refine trimEnd_eq_self_iff.mpr fun c hc => h c ?_
  obtain ⟨run, hrun⟩ := List.dropWhile_suffix (l := cs) isBlank
  rw [← hrun, List.getLast?_append, show cs.dropWhile isBlank = trimStart cs from rfl,
    Option.mem_def.mp hc]
  rfl

theorem length_trim_le (cs : List Char) : (trim cs).length ≤ cs.length := by
  rw [trim, trimEnd, List.length_reverse]
  refine (List.length_dropWhile_le isBlank _).trans ?_
  rw [List.length_reverse]
  exact List.length_dropWhile_le isBlank cs

theorem trim_eq_self_iff : trim cs = cs ↔
    (∀ c ∈ cs.head?, isBlank c = false) ∧ ∀ c ∈ cs.getLast?, isBlank c = false := by
  constructor
  · intro h
    have hstart : trimStart cs = cs := by
      refine List.IsSuffix.eq_of_length_le (List.dropWhile_suffix isBlank) ?_
      have hle := List.length_dropWhile_le isBlank (trimStart cs).reverse
      rw [← List.length_reverse, ← trimStart, ← trimEnd, ← trim, h] at hle
      simpa using hle
    refine ⟨trimStart_eq_self_iff.mp hstart, trimEnd_eq_self_iff.mp ?_⟩
    rwa [trim, hstart] at h
  · rintro ⟨hhead, hlast⟩
    rw [trim_of_getLast hlast, trimStart_eq_self_iff.mpr hhead]

end Trim

end StoryFlow.Text
