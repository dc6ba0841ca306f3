import StoryFlow.Lint.Scan
import StoryFlow.Proofs.Text.Runs

/-! # Matches of patterns

Commands of one word are looked for without a look at the character before them, so their matches
are found one after the other, each behind the end of the last one.
-/

namespace StoryFlow.Lint

open Text

namespace Pattern

variable {p : Pattern} {c : Char} {cs part : List Char} {n : Nat}

/-- The pattern does not look at the character before a match. -/
def LooksAhead (p : Pattern) : Prop :=
  ∀ before cs, p before cs = p none cs

theorem LooksAhead.matchesFrom (hp : p.LooksAhead) (before : Option Char) (skip : Nat)
    (cs : List Char) : p.matchesFrom before skip cs = p.all (cs.drop skip) := by
  induction cs generalizing before skip with
  | nil => cases skip <;> rfl
  | cons c cs ih =>
    cases skip with
    | succ skip => exact ih (some c) skip
    | zero =>
      rw [List.drop_zero, all, Pattern.matchesFrom, hp, Pattern.matchesFrom]

theorem LooksAhead.all_of_none (hp : p.LooksAhead) (h : p none (c :: cs) = none) :
    p.all (c :: cs) = p.all cs := by
  rw [all, Pattern.matchesFrom, h]
  exact hp.matchesFrom (some c) 0 cs

theorem LooksAhead.all_of_some (hp : p.LooksAhead) (h : p none (c :: cs) = some (part, n)) :
    p.all (c :: cs) = part :: p.all (cs.drop (n - 1)) := by
  rw [all, Pattern.matchesFrom, h]
  exact congrArg (part :: ·) (hp.matchesFrom (some c) (n - 1) cs)

theorem LooksAhead.all_append (hp : p.LooksAhead) {ds : List Char}
    (hds : ∀ d ∈ ds, ∀ cs, p none (d :: cs) = none) (cs : List Char) :
    p.all (ds ++ cs) = p.all cs := by
  induction ds with
  | nil => rfl
  | cons d ds ih =>
    rw [List.forall_mem_cons] at hds
    rw [List.cons_append, hp.all_of_none (hds.1 _), ih hds.2]

end Pattern

section WordCommand

variable {word run cs : List Char} {part : List Char → Option (List Char × Nat)}
  {before : Option Char}

theorem wordCommand_looksAhead : (wordCommand word part).LooksAhead :=
  fun _ _ => rfl

theorem wordCommand_eq_none (h : ¬ word <+: cs) : wordCommand word part before cs = none :=
  if_neg (by simpa using h)

/-- Behind its word a command goes on with blanks, and behind these with its part. -/
theorem wordCommand_append (hrun : ∀ c ∈ run, isBlank c) (hcs : cs.takeWhile isBlank = []) :
    wordCommand word part before (word ++ (run ++ cs)) =
      if run = [] then none
      else (part cs).map fun (body, length) => (body, word.length + run.length + length) := by
  have hdrop : (word ++ (run ++ cs)).drop (word.length + run.length) = cs := by
    rw [← List.append_assoc, ← List.length_append, List.drop_left]
  simp only [wordCommand, List.isPrefixOf_iff_prefix, List.prefix_append, if_true, List.drop_left,
    takeWhile_append_of_stop hrun hcs, List.isEmpty_iff, hdrop]

end WordCommand

end StoryFlow.Lint
