import StoryFlow.Lint.Scan
import StoryFlow.Proofs.Text.LineBreaks

/-! # One more line in a script

Putting a line into a script moves the lines behind it down by one. A walk that does not look at
the numbers of lines finds what it found before, under the new numbers, when it finds nothing in
the new line and goes on from there as if it were missing.
-/

namespace StoryFlow.Lint

open Text

/-- The number of a line once another one stands behind the first `n`. -/
def moved (n line : Nat) : Nat :=
  if line ≤ n then line else line + 1

theorem moved_of_le {n line : Nat} (h : line ≤ n) : moved n line = line :=
  if_pos h

theorem moved_of_lt {n line : Nat} (h : n < line) : moved n line = line + 1 :=
  if_neg (Nat.not_le.mpr h)

section Renumber

variable (f : Nat → Nat)

/-- A problem with the lines that it mentions under new numbers. -/
def Problem.renumber : Problem → Problem
  | unclosedIf opened => unclosedIf (f opened)
  | branchAfterElse opened => branchAfterElse (f opened)
  | unclosedBlock opened => unclosedBlock (f opened)
  | manyElse opened count => manyElse (f opened) count
  | declaredTwice name first => declaredTwice name (f first)
  | knotTwice name first => knotTwice name (f first)
  | varTwice name first => varTwice name (f first)
  | p => p

def Issue.renumber (i : Issue) : Issue :=
  { i with problem := i.problem.renumber f, line := f i.line }

/-- Names with the lines of their definitions under new numbers. -/
def renumberSeen (seen : List (String × Nat)) : List (String × Nat) :=
  seen.map fun p => (p.1, f p.2)

@[simp] theorem Problem.renumber_at (p : Problem) (line : Nat) :
    (p.at line).renumber f = (p.renumber f).at (f line) := rfl

theorem digitIssues_renumber (place : NamePlace) (line : Nat) (name : List Char) :
    digitIssues place (f line) name = (digitIssues place line name).map (Issue.renumber f) := by
  unfold digitIssues
  split <;> rfl

theorem firstLine?_renumber (name : String) (seen : List (String × Nat)) :
    firstLine? name (renumberSeen f seen) = (firstLine? name seen).map f := by
  simp only [firstLine?, renumberSeen, List.find?_map, Option.map_map]
  rfl

theorem define_renumber (twice : String → Nat → Problem)
    (ht : ∀ name first, (twice name first).renumber f = twice name (f first)) (name : String)
    (line : Nat) (seen : List (String × Nat)) :
    define twice name (f line) (renumberSeen f seen) =
      ((define twice name line seen).1.map (Issue.renumber f),
        renumberSeen f (define twice name line seen).2) := by
  unfold define
  rw [firstLine?_renumber]
  cases firstLine? name seen with
  | none => simp [renumberSeen]
  | some first => simp [ht]

end Renumber

section Walk

variable {σ : Type} {step : σ → Nat → List Char → List Issue × σ}
  {renumber : (Nat → Nat) → σ → σ}
  {settled : σ → Prop} {s : σ} {f : Nat → Nat}

theorem walk_append (s : σ) (n : Nat) (before after : List (List Char)) :
    walk step s n (before ++ after) =
      let first := walk step s n before
      let last := walk step first.2 (n + before.length) after
      (first.1 ++ last.1, last.2) := by
  induction before generalizing s n with
  | nil => simp [walk]
  | cons text before ih =>
    simp only [List.cons_append, walk, ih, List.append_assoc, List.length_cons]
    rw [Nat.add_right_comm n 1, Nat.add_assoc n]

/-- A step that gives line numbers new names gives the issues and the state new names. It may look
at the number of the next line unless it ends in a settled state. -/
def Renumbers (step : σ → Nat → List Char → List Issue × σ) (renumber : (Nat → Nat) → σ → σ)
    (settled : σ → Prop) : Prop :=
  ∀ (f : Nat → Nat) (s : σ) (line : Nat) (text : List Char),
    f (line + 1) = f line + 1 ∨ settled (step s line text).2 →
    step (renumber f s) (f line) text =
      ((step s line text).1.map (Issue.renumber f), renumber f (step s line text).2)

/-- What a step does with new numbers the whole walk does with numbers that are all moved by the
same distance. -/
theorem Renumbers.walk (hstep : Renumbers step renumber settled) {d m : Nat}
    (texts : List (List Char)) (hf : ∀ k, m ≤ k → k < m + texts.length → f k = k + d)
    (hend : f (m + texts.length) = m + texts.length + d ∨ settled (walk step s m texts).2) :
    walk step (renumber f s) (m + d) texts =
      ((walk step s m texts).1.map (Issue.renumber f), renumber f (walk step s m texts).2) := by
  induction texts generalizing s m with
  | nil => rfl
  | cons text texts ih =>
    have hm : f m = m + d := hf m (Nat.le_refl m) (by simp)
    have hnext : f (m + 1) = f m + 1 ∨ settled (step s m text).2 := by
      cases texts with
      | nil => exact hend.imp_left fun h => by rw [hm]; exact h.trans (by simp; omega)
      | cons next texts =>
        exact Or.inl (by rw [hm, hf (m + 1) (by omega) (by simp)]; omega)
    have hlength : m + (text :: texts).length = m + 1 + texts.length := by
      simp [Nat.add_right_comm m 1, Nat.add_assoc]
    have hrest := ih (s := (step s m text).2) (m := m + 1)
      (fun k hk hlt => hf k (by omega) (by omega)) (by rw [← hlength]; exact hend)
    simp only [Lint.walk]
    rw [← hm, hstep f s m text hnext, hm, Nat.add_right_comm m d 1, hrest]
    simp

end Walk

section Inserts

variable {n : Nat} {line source longer before after : String}

/-- The lines of a longer script are those of another one and a line behind the first `n`. -/
structure Inserts (n : Nat) (line source longer : String) : Prop where
  le_length : n ≤ (lines source).length
  lines_eq : lines longer =
    (lines source).take n ++ trim line.toList :: (lines source).drop n

/-- A text whose line breaks are all line feeds. -/
def withFeeds (cs : List Char) : List Char :=
  substitute returnLength ['\n'] cs

theorem withFeeds_return_feed (cs : List Char) :
    withFeeds ('\r' :: '\n' :: cs) = '\n' :: withFeeds cs := rfl

theorem withFeeds_return {cs : List Char} (h : cs.head? ≠ some '\n') :
    withFeeds ('\r' :: cs) = '\n' :: withFeeds cs := by
  cases cs with
  | nil => rfl
  | cons c cs =>
    have hc : returnLength ('\r' :: c :: cs) = 1 := by
      unfold returnLength
      split <;> simp_all
    rw [withFeeds, substitute, substituteFrom, hc]
    rfl

theorem withFeeds_cons {c : Char} (hc : c ≠ '\r') (cs : List Char) :
    withFeeds (c :: cs) = c :: withFeeds cs := by
  have hz : returnLength (c :: cs) = 0 := by
    unfold returnLength
    split <;> simp_all
  rw [withFeeds, substitute, substituteFrom, hz]
  rfl

theorem withFeeds_of_not_mem {cs : List Char} (h : '\r' ∉ cs) : withFeeds cs = cs := by
  induction cs with
  | nil => rfl
  | cons c cs ih =>
    rw [List.mem_cons, not_or] at h
    rw [withFeeds_cons (Ne.symm h.1), ih h.2]

/-- A line feed that does not belong to a carriage return before it separates two texts. -/
theorem withFeeds_append : ∀ {cs : List Char}, cs.getLast? ≠ some '\r' →
    ∀ ds, withFeeds (cs ++ '\n' :: ds) = withFeeds cs ++ '\n' :: withFeeds ds
  | [], _, ds => withFeeds_cons (by decide) ds
  | [c], h, ds => by
    have hc : c ≠ '\r' := fun he => h (he ▸ rfl)
    rw [List.singleton_append, withFeeds_cons hc, withFeeds_cons (by decide), withFeeds_cons hc]
    rfl
  | c :: d :: cs, h, ds => by
    have hcs : (d :: cs).getLast? ≠ some '\r' := by simpa using h
    have ih := withFeeds_append hcs ds
    by_cases hc : c = '\r'
    · by_cases hd : d = '\n'
      · subst hc hd
        rw [List.cons_append, withFeeds_cons (by decide), withFeeds_cons (by decide),
          List.cons_append] at ih
        rw [List.cons_append, List.cons_append, withFeeds_return_feed, withFeeds_return_feed,
          List.cons_append, (List.cons.inj ih).2]
      · subst hc
        rw [List.cons_append, withFeeds_return (by simpa using hd),
          withFeeds_return (by simpa using hd), ih, List.cons_append]
    · rw [List.cons_append, withFeeds_cons hc, withFeeds_cons hc, ih, List.cons_append]

theorem lines_eq_map (source : String) :
    lines source = (pieces '\n' (withFeeds source.toList)).map trim := rfl

theorem lines_append (hr : before.toList.getLast? ≠ some '\r') (after : String) :
    lines (before ++ "\n" ++ after) = lines before ++ lines after := by
  rw [lines_eq_map, String.toList_append, String.toList_append, List.append_assoc]
  rw [show "\n".toList ++ after.toList = '\n' :: after.toList from rfl, withFeeds_append hr,
    pieces_append_cons, List.map_append]
  rfl

theorem lines_of_unbroken (hu : Unbroken line) : lines line = [trim line.toList] := by
  have hn : '\n' ∉ line.toList := fun h => hu _ h (Or.inl rfl)
  have hr : '\r' ∉ line.toList := fun h => hu _ h (Or.inr rfl)
  rw [lines_eq_map, withFeeds_of_not_mem hr, pieces_of_not_mem hn, List.map_singleton]

/-- A line that holds no line end can be put between any two lines. -/
theorem inserts_between (hr : before.toList.getLast? ≠ some '\r') (hu : Unbroken line) :
    Inserts (lines before).length line (before ++ "\n" ++ after)
      (before ++ "\n" ++ (line ++ "\n" ++ after)) where
  le_length := by simp [lines_append hr]
  lines_eq := by
    have hl : line.toList.getLast? ≠ some '\r' := fun h =>
      hu _ (List.mem_of_mem_getLast? h) (Or.inr rfl)
    rw [lines_append hr, lines_append hr, lines_append hl, lines_of_unbroken hu,
      List.take_left' rfl, List.drop_left' rfl, List.singleton_append]

variable {σ : Type} {step : σ → Nat → List Char → List Issue × σ}
  {renumber : (Nat → Nat) → σ → σ}
  {settled : σ → Prop} {s : σ} {new : List Issue}

/-- When a step finds `new` in an inserted line and leaves the state alone, the walk finds `new`
between the issues that it found without the line, and these under the new numbers. -/
theorem walk_of_inserts (h : Inserts n line source longer)
    (hstep : Renumbers step renumber settled) (hs : renumber (moved n) s = s)
    (hsettled : settled (walk step s 1 ((lines source).take n)).2)
    (hline : let here := (walk step s 1 ((lines source).take n)).2
      step here (n + 1) (trim line.toList) = (new, here)) :
    ∃ before after, (walk step s 1 (lines source)).1 = before ++ after ∧
      walk step s 1 (lines longer) =
        (before.map (Issue.renumber (moved n)) ++ (new ++ after.map (Issue.renumber (moved n))),
          renumber (moved n) (walk step s 1 (lines source)).2) := by
  have hlength : ((lines source).take n).length = n := List.length_take_of_le h.le_length
  -- The lines up to the new one keep their numbers, so new numbers change nothing there.
  have hbefore := hstep.walk (s := s) (f := moved n) (d := 0) (m := 1)
    ((lines source).take n) (fun k _ hlt => moved_of_le (by omega)) (Or.inr hsettled)
  rw [Nat.add_zero, hs] at hbefore
  rcases hw : walk step s 1 ((lines source).take n) with ⟨early, here⟩
  rw [hw] at hbefore hsettled hline
  obtain ⟨hearly, hhere⟩ := Prod.mk.inj hbefore
  have hafter := hstep.walk (s := here) (f := moved n) (d := 1) (m := n + 1)
    ((lines source).drop n) (fun k hk _ => moved_of_lt (by omega))
    (Or.inl (moved_of_lt (by omega)))
  rw [← hhere] at hafter
  have hsource : walk step s 1 (lines source) =
      let last := walk step here (n + 1) ((lines source).drop n)
      (early ++ last.1, last.2) := by
    rw [← List.take_append_drop n (lines source), walk_append, hw, hlength,
      List.take_append_drop, Nat.add_comm 1 n]
  refine ⟨early, _, congrArg Prod.fst hsource, ?_⟩
  simp only [h.lines_eq, walk_append, hw, hlength, hsource, Nat.add_comm 1 n, walk, hline, hafter,
    ← hearly]

end Inserts

end StoryFlow.Lint
