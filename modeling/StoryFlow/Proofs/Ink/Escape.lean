import StoryFlow.Ink.Line
import StoryFlow.Lint.Ink
import StoryFlow.Proofs.Lint.Pattern

/-! # Escaped text in Ink

An escaped text holds no arrow, no comment, and no brace or bracket without a backslash before it,
and starts with no mark of a choice, a gather or a header. What makes a line a declaration of a
variable is letters, blanks and an equals sign, and these are written as they are.
-/

namespace StoryFlow.Ink

open Lint Text

section EscapeBody

variable {c ch : Char} {cs ds run : List Char} {r : Char → Bool}

theorem escapeBody_cons (c : Char) (cs : List Char) :
    isSyntaxChar c ∧ escapeBody (c :: cs) = '\\' :: c :: escapeBody cs ∨
    isSyntaxChar c = false ∧ opensPair c cs.head? ∧
      escapeBody (c :: cs) = c :: '\\' :: escapeBody cs ∨
    isSyntaxChar c = false ∧ opensPair c cs.head? = false ∧
      escapeBody (c :: cs) = c :: escapeBody cs := by
  rw [escapeBody]
  by_cases hc : isSyntaxChar c
  · exact Or.inl ⟨hc, if_pos hc⟩
  · by_cases ho : opensPair c cs.head? <;> simp [hc, ho]

/-- A character that is written as it is wherever it stands. -/
def isPlain (c : Char) : Bool :=
  !isSyntaxChar c && c != '-' && c != '/'

theorem isPlain_of {r : Char → Bool} (hr : "[]\x7b\x7d#|~\\-/".toList.any r = false) (hc : r c) :
    isPlain c := by
  have hnot : c ∉ "[]\x7b\x7d#|~\\-/".toList := fun h => List.any_eq_false.mp hr c h hc
  simpa [isPlain, isSyntaxChar, and_assoc] using hnot

theorem escapeBody_cons_of_isPlain (hc : isPlain c) (cs : List Char) :
    escapeBody (c :: cs) = c :: escapeBody cs := by
  simp only [isPlain, Bool.and_eq_true, Bool.not_eq_true', bne_iff_ne, ne_eq] at hc
  simp [escapeBody, opensPair, hc]

theorem escapeBody_append_of_isPlain (hrun : ∀ c ∈ run, isPlain c) (cs : List Char) :
    escapeBody (run ++ cs) = run ++ escapeBody cs :=
  append_of_cons (fun _ hc => escapeBody_cons_of_isPlain hc) hrun cs

theorem head?_escapeBody (cs : List Char) :
    (escapeBody cs).head? = cs.head? ∨ (escapeBody cs).head? = some '\\' := by
  cases cs with
  | nil => exact Or.inl rfl
  | cons c cs => rcases escapeBody_cons c cs with ⟨_, he⟩ | ⟨_, _, he⟩ | ⟨_, _, he⟩ <;> simp [he]

theorem any_escapeBody (hr : r '\\' = false) (cs : List Char) :
    (escapeBody cs).any r = cs.any r := by
  induction cs with
  | nil => rfl
  | cons c cs ih =>
    rcases escapeBody_cons c cs with ⟨_, he⟩ | ⟨_, _, he⟩ | ⟨_, _, he⟩ <;> simp [he, hr, ih]

theorem takeWhile_escapeBody (hr : r '\\' = false) (h : cs.takeWhile r = []) :
    (escapeBody cs).takeWhile r = [] := by
  cases cs with
  | nil => rfl
  | cons c cs =>
    have hc : r c = false := by simpa using h
    rcases escapeBody_cons c cs with ⟨_, he⟩ | ⟨_, _, he⟩ | ⟨_, _, he⟩ <;> simp [he, hr, hc]

theorem countUnescaped_slash (ch c : Char) (cs : List Char) :
    countUnescaped ch ('\\' :: c :: cs) = countUnescaped ch cs := rfl

theorem countUnescaped_cons_of_ne (hs : c ≠ '\\') (hc : c ≠ ch) (cs : List Char) :
    countUnescaped ch (c :: cs) = countUnescaped ch cs := by
  cases cs <;> simp [countUnescaped, hs, hc]

theorem isSyntaxChar_slash : isSyntaxChar '\\' := rfl

/-- What follows the first character of a pair is no syntax character. -/
theorem head?_of_opensPair (h : opensPair c cs.head?) :
    cs.head?.any fun d => !isSyntaxChar d := by
  cases cs with
  | nil => simp [opensPair] at h
  | cons d cs =>
    simp only [opensPair, List.head?_cons, Option.some_beq_some, Bool.or_eq_true,
      Bool.and_eq_true, beq_iff_eq] at h
    rcases h with ⟨-, rfl⟩ | ⟨-, rfl⟩ <;> rfl

/-- No syntax character is left without a backslash, and one more backslash in front of a text
escapes its first character and no other. -/
theorem countUnescaped_escapeBody (hch : isSyntaxChar ch) (cs : List Char) :
    countUnescaped ch (escapeBody cs) = 0 ∧
      (cs.head?.any (fun c => !isSyntaxChar c) → countUnescaped ch ('\\' :: escapeBody cs) = 0) := by
  have hplain : ∀ {c : Char}, isSyntaxChar c = false → c ≠ '\\' ∧ c ≠ ch := by
    rintro c hc
    exact ⟨fun h => by simp [h, isSyntaxChar_slash] at hc, fun h => by simp [h, hch] at hc⟩
  induction cs with
  | nil => exact ⟨rfl, by simp⟩
  | cons c cs ih =>
    rcases escapeBody_cons c cs with ⟨hc, he⟩ | ⟨hc, ho, he⟩ | ⟨hc, -, he⟩ <;> rw [he]
    · exact ⟨(countUnescaped_slash ..).trans ih.1, by simp [hc]⟩
    · have hrest := ih.2 (head?_of_opensPair ho)
      obtain ⟨hs, hd⟩ := hplain hc
      exact ⟨(countUnescaped_cons_of_ne hs hd _).trans hrest,
        fun _ => (countUnescaped_slash ..).trans hrest⟩
    · obtain ⟨hs, hd⟩ := hplain hc
      exact ⟨(countUnescaped_cons_of_ne hs hd _).trans ih.1,
        fun _ => (countUnescaped_slash ..).trans ih.1⟩

theorem divert_cons_of_ne (hc : c ≠ '-') (before : Option Char) (cs : List Char) :
    divert before (c :: cs) = none := by
  unfold divert
  split
  · rename_i he
    exact absurd (List.cons.inj he).1 hc
  · rfl

theorem divert_looksAhead : divert.LooksAhead := by
  intro before cs
  unfold divert
  split <;> rfl

/-- The arrows of a text are broken up. -/
theorem divert_escapeBody (cs : List Char) : divert.all (escapeBody cs) = [] := by
  have hother : ∀ {c : Char}, c ≠ '-' → ∀ cs, divert.all (c :: cs) = divert.all cs :=
    fun hc cs => divert_looksAhead.all_of_none (divert_cons_of_ne hc none cs)
  have hdash : ∀ {cs : List Char}, cs.head? ≠ some '>' → divert.all ('-' :: cs) = divert.all cs := by
    intro cs hcs
    refine divert_looksAhead.all_of_none ?_
    unfold divert
    split
    · rename_i he
      exact absurd (congrArg List.head? (List.cons.inj he).2) hcs
    · rfl
  induction cs with
  | nil => rfl
  | cons c cs ih =>
    rcases escapeBody_cons c cs with ⟨hc, he⟩ | ⟨hc, -, he⟩ | ⟨hc, ho, he⟩ <;> rw [he]
    · rw [hother (by decide), hother (by rintro rfl; exact absurd hc (by decide)), ih]
    · by_cases hd : c = '-'
      · rw [hd, hdash (by simp), hother (by decide), ih]
      · rw [hother hd, hother (by decide), ih]
    · by_cases hd : c = '-'
      · subst hd
        rw [hdash, ih]
        intro hh
        rcases head?_escapeBody cs with he | he
        · simp [opensPair, ← he, hh] at ho
        · simp [he] at hh
      · rw [hother hd, ih]

theorem inline_cons_of_ne (hc : c ≠ '\x7b') (before : Option Char) (cs : List Char) :
    Lint.inline before (c :: cs) = none := by
  unfold Lint.inline
  split
  · rename_i he
    exact absurd (List.cons.inj he).1 hc
  · rfl

/-- The braces of a text stand behind backslashes. -/
theorem inline_escapeBody (before : Option Char) (cs : List Char) :
    Lint.inline.matchesFrom before 0 (escapeBody cs) = [] := by
  have hother : ∀ {c : Char}, c ≠ '\x7b' → ∀ before cs,
      Lint.inline.matchesFrom before 0 (c :: cs) = Lint.inline.matchesFrom (some c) 0 cs := by
    intro c hc before cs
    rw [Pattern.matchesFrom, inline_cons_of_ne hc]
  have hslash : ∀ (c : Char) cs, Lint.inline (some '\\') (c :: cs) = none := by
    intro c cs
    unfold Lint.inline
    split
    · exact if_neg fun h => h.1 rfl
    · rfl
  induction cs generalizing before with
  | nil => rfl
  | cons c cs ih =>
    rcases escapeBody_cons c cs with ⟨hc, he⟩ | ⟨hc, -, he⟩ | ⟨hc, -, he⟩ <;> rw [he]
    · rw [hother (by decide), Pattern.matchesFrom, hslash]
      exact ih _
    · rw [hother (by rintro rfl; exact absurd hc (by decide)), hother (by decide), ih]
    · rw [hother (by rintro rfl; exact absurd hc (by decide)), ih]

end EscapeBody

section EscapeChars

variable {c ch : Char} {cs : List Char}

theorem escapeChars_cases (cs : List Char) :
    (escapeBody cs).head?.any startsSyntax ∧ escapeChars cs = '\\' :: escapeBody cs ∨
      (escapeBody cs).head?.any startsSyntax = false ∧ escapeChars cs = escapeBody cs := by
  simp only [escapeChars]
  cases hs : (escapeBody cs).head?.any startsSyntax <;> simp

/-- An escaped text starts with a backslash, or with what is no syntax anywhere and at no start of
a line. -/
theorem head?_escapeChars (h : c ∈ (escapeChars cs).head?) :
    c = '\\' ∨ isSyntaxChar c = false ∧ startsSyntax c = false := by
  rcases escapeChars_cases cs with ⟨-, he⟩ | ⟨hs, he⟩ <;> rw [he] at h
  · exact Or.inl (Option.some.inj h).symm
  · cases cs with
    | nil => simp [escapeBody] at h
    | cons d cs =>
      rcases escapeBody_cons d cs with ⟨-, hb⟩ | ⟨hd, -, hb⟩ | ⟨hd, -, hb⟩ <;> rw [hb] at h hs
      · exact Or.inl (Option.some.inj h).symm
      · obtain rfl : d = c := Option.some.inj h
        exact Or.inr ⟨hd, by simpa using hs⟩
      · obtain rfl : d = c := Option.some.inj h
        exact Or.inr ⟨hd, by simpa using hs⟩

theorem not_prefix_escapeChars : ¬ ['/', '/'] <+: escapeChars cs := by
  intro hp
  rcases escapeChars_cases cs with ⟨-, he⟩ | ⟨-, he⟩ <;> rw [he] at hp
  · exact absurd (List.cons_prefix_cons.mp hp).1 (by decide)
  · cases cs with
    | nil => simp [escapeBody] at hp
    | cons c cs =>
      rcases escapeBody_cons c cs with ⟨-, hb⟩ | ⟨-, -, hb⟩ | ⟨-, ho, hb⟩ <;> rw [hb] at hp
      · exact absurd (List.cons_prefix_cons.mp hp).1 (by decide)
      · exact absurd (List.cons_prefix_cons.mp (List.cons_prefix_cons.mp hp).2).1 (by decide)
      · obtain ⟨rfl, rest, hrest⟩ := List.cons_prefix_cons.mp hp
        rcases head?_escapeBody cs with hh | hh <;> rw [← hrest] at hh
        · simp [opensPair, ← hh] at ho
        · simp at hh

theorem getLast?_escapeBody (cs : List Char) : (escapeBody cs).getLast? = cs.getLast? := by
  induction cs with
  | nil => rfl
  | cons c cs ih =>
    have hcons : (c :: escapeBody cs).getLast? = (c :: cs).getLast? := by
      rw [List.getLast?_cons, List.getLast?_cons, ih]
    rcases escapeBody_cons c cs with ⟨-, he⟩ | ⟨-, ho, he⟩ | ⟨-, -, he⟩ <;> rw [he]
    · rw [List.getLast?_cons_cons, hcons]
    · cases cs with
      | nil => simp [opensPair] at ho
      | cons d cs => rw [List.getLast?_cons_cons, List.getLast?_cons, ih]; simp [List.getLast?_cons]
    · exact hcons

theorem escapeChars_ne_nil (h : cs ≠ []) : escapeChars cs ≠ [] := by
  obtain ⟨c, cs, rfl⟩ := List.exists_cons_of_ne_nil h
  rcases escapeChars_cases (c :: cs) with ⟨-, he⟩ | ⟨-, he⟩
  · simp [he]
  · rcases escapeBody_cons c cs with ⟨_, hb⟩ | ⟨_, _, hb⟩ | ⟨_, _, hb⟩ <;> simp [he, hb]

theorem trim_escapeChars (h : trim cs = cs) : trim (escapeChars cs) = escapeChars cs := by
  obtain ⟨hhead, hlast⟩ := trim_eq_self_iff.mp h
  rw [trim_eq_self_iff]
  rcases escapeChars_cases cs with ⟨-, he⟩ | ⟨-, he⟩ <;> rw [he]
  · refine ⟨by simp +decide, fun c hc => ?_⟩
    rw [List.getLast?_cons, getLast?_escapeBody] at hc
    cases hl : cs.getLast? with
    | none =>
      obtain rfl : '\\' = c := by simpa [hl] using hc
      decide
    | some d =>
      obtain rfl : d = c := by simpa [hl] using hc
      exact hlast d hl
  · rw [getLast?_escapeBody]
    refine ⟨fun c hc => ?_, hlast⟩
    rcases head?_escapeBody cs with hh | hh <;> rw [hh] at hc
    · exact hhead c hc
    · obtain rfl := Option.some.inj hc
      decide

theorem countUnescaped_escapeChars (hch : isSyntaxChar ch) (cs : List Char) :
    countUnescaped ch (escapeChars cs) = 0 := by
  rcases escapeChars_cases cs with ⟨hs, he⟩ | ⟨-, he⟩ <;> rw [he]
  · refine (countUnescaped_escapeBody hch cs).2 ?_
    have hsyntax : ∀ {c : Char}, startsSyntax c → (!isSyntaxChar c) = true := by
      intro c hc
      simp only [startsSyntax, Bool.or_eq_true, beq_iff_eq] at hc
      rcases hc with ((rfl | rfl) | rfl) | rfl <;> rfl
    obtain ⟨c, hc, hs⟩ := Option.any_eq_true _ _ |>.mp hs
    rcases head?_escapeBody cs with hh | hh <;> rw [hh] at hc
    · exact (Option.any_eq_true _ _).mpr ⟨c, hc, hsyntax hs⟩
    · obtain rfl := Option.some.inj hc
      exact absurd hs (by decide)
  · exact (countUnescaped_escapeBody hch cs).1

theorem divert_escapeChars (cs : List Char) : divert.all (escapeChars cs) = [] := by
  rcases escapeChars_cases cs with ⟨-, he⟩ | ⟨-, he⟩ <;> rw [he]
  · rw [divert_looksAhead.all_of_none (divert_cons_of_ne (by decide) none _), divert_escapeBody]
  · exact divert_escapeBody cs

theorem inline_escapeChars (cs : List Char) : Lint.inline.all (escapeChars cs) = [] := by
  rcases escapeChars_cases cs with ⟨-, he⟩ | ⟨-, he⟩ <;> rw [he, Pattern.all]
  · rw [Pattern.matchesFrom, inline_cons_of_ne (by decide)]
    exact inline_escapeBody _ cs
  · exact inline_escapeBody none cs

end EscapeChars

section Declaration

variable {run name gap cs : List Char}

/-- A declaration is blanks, a name, and an equals sign with a value on one line behind it. -/
theorem var?_append (hrun : ∀ c ∈ run, isBlank c) (hname : ∀ c ∈ name, isWordChar c)
    (hgap : ∀ c ∈ gap, isBlank c) (h₁ : (name ++ (gap ++ cs)).takeWhile isBlank = [])
    (h₂ : (gap ++ cs).takeWhile isWordChar = []) (h₃ : cs.takeWhile isBlank = []) :
    Lint.Ink.var? ('V' :: 'A' :: 'R' :: (run ++ (name ++ (gap ++ cs)))) = none ↔
      ∀ value, cs = '=' :: value → run = [] ∨ name = [] ∨ (trimStart value).any isLineEnd := by
  have hlength : (name ++ (gap ++ cs)).length = (run ++ (name ++ (gap ++ cs))).length ↔ run = [] := by
    simp only [List.length_append, ← List.length_eq_zero_iff]
    omega
  simp only [Lint.Ink.var?, trimStart, dropWhile_append_of_stop hrun h₁,
    takeWhile_append_of_stop hname h₂, List.drop_left, dropWhile_append_of_stop hgap h₃, hlength,
    List.isEmpty_iff]
  split
  · rename_i value
    simp only [ite_eq_left_iff, reduceCtorEq, imp_false, not_not]
    exact ⟨fun h _ he => (List.cons.inj he).2 ▸ h, fun h => h value rfl⟩
  · rename_i hcs
    simpa using fun value he => absurd he (hcs value)

theorem not_prefix_of_var? (h : ¬ "VAR".toList <+: cs) : Lint.Ink.var? cs = none := by
  unfold Lint.Ink.var?
  split
  · exact absurd ⟨_, rfl⟩ h
  · rfl

theorem prefix_of_prefix_escapeChars {word : List Char} (hw : '\\' ∉ word)
    (h : word <+: escapeChars cs) : word <+: cs := by
  have hbody : ∀ {word cs : List Char}, '\\' ∉ word → word <+: escapeBody cs → word <+: cs := by
    intro word
    induction word with
    | nil => exact fun _ _ => List.nil_prefix
    | cons a word ih =>
      intro cs hw h
      obtain ⟨ha, hword⟩ : ¬ '\\' = a ∧ '\\' ∉ word := by simpa using hw
      cases cs with
      | nil => exact h
      | cons c cs =>
        rcases escapeBody_cons c cs with ⟨-, he⟩ | ⟨-, -, he⟩ | ⟨-, -, he⟩ <;> rw [he] at h
        · exact absurd (List.cons_prefix_cons.mp h).1.symm ha
        · obtain ⟨rfl, hrest⟩ := List.cons_prefix_cons.mp h
          cases word with
          | nil => exact List.cons_prefix_cons.mpr ⟨rfl, List.nil_prefix⟩
          | cons b word =>
            exact absurd (List.cons_prefix_cons.mp hrest).1 fun hb => hword (by simp [hb])
        · obtain ⟨rfl, hrest⟩ := List.cons_prefix_cons.mp h
          exact List.cons_prefix_cons.mpr ⟨rfl, ih hword hrest⟩
  rcases escapeChars_cases cs with ⟨-, he⟩ | ⟨-, he⟩ <;> rw [he] at h
  · cases word with
    | nil => exact List.nil_prefix
    | cons a word => exact absurd (List.cons_prefix_cons.mp h).1 fun ha => hw (by simp [ha])
  · exact hbody hw h

/-- The value of a declaration goes on to the end of its line in an escaped text too. -/
theorem any_trimStart_escapeBody (cs : List Char) :
    (trimStart (escapeBody cs)).any isLineEnd = (trimStart cs).any isLineEnd := by
  obtain ⟨run, rest, rfl, hrun, hrest⟩ := exists_run isBlank cs
  rw [escapeBody_append_of_isPlain fun c hc => isPlain_of (by decide) (hrun c hc), trimStart,
    trimStart, dropWhile_append_of_stop hrun (takeWhile_escapeBody (by decide) hrest),
    dropWhile_append_of_stop hrun hrest, any_escapeBody (by decide)]

/-- A text and its escaped form are declarations of a variable alike. -/
theorem var?_escapeChars (cs : List Char) :
    Lint.Ink.var? (escapeChars cs) = none ↔ Lint.Ink.var? cs = none := by
  by_cases hp : "VAR".toList <+: cs
  · obtain ⟨rest, rfl⟩ := hp
    obtain ⟨run, rest, rfl, hrun, h₁⟩ := exists_run isBlank rest
    obtain ⟨name, rest, rfl, hname, h₂⟩ := exists_run isWordChar rest
    obtain ⟨gap, rest, rfl, hgap, h₃⟩ := exists_run isBlank rest
    have hblank : ∀ {c : Char}, isBlank c → isPlain c := isPlain_of (by decide)
    have hword : ∀ {c : Char}, isWordChar c → isPlain c := isPlain_of (by decide)
    have hgap' : escapeBody (gap ++ rest) = gap ++ escapeBody rest :=
      escapeBody_append_of_isPlain (fun c hc => hblank (hgap c hc)) rest
    have hname' : escapeBody (name ++ (gap ++ rest)) = name ++ (gap ++ escapeBody rest) := by
      rw [escapeBody_append_of_isPlain fun c hc => hword (hname c hc), hgap']
    have hbody : escapeBody ("VAR".toList ++ (run ++ (name ++ (gap ++ rest)))) =
        'V' :: 'A' :: 'R' :: (run ++ (name ++ (gap ++ escapeBody rest))) := by
      rw [escapeBody_append_of_isPlain (List.all_eq_true.mp (by decide)),
        escapeBody_append_of_isPlain fun c hc => hblank (hrun c hc), hname']
      rfl
    have hescape : escapeChars ("VAR".toList ++ (run ++ (name ++ (gap ++ rest)))) =
        'V' :: 'A' :: 'R' :: (run ++ (name ++ (gap ++ escapeBody rest))) := by
      rw [escapeChars, hbody]
      rfl
    have h₁' := takeWhile_escapeBody (by decide) h₁
    have h₂' := takeWhile_escapeBody (by decide) h₂
    rw [hname'] at h₁'
    rw [hgap'] at h₂'
    rw [hescape, var?_append hrun hname hgap h₁' h₂' (takeWhile_escapeBody (by decide) h₃)]
    refine Iff.trans ?_ (var?_append hrun hname hgap h₁ h₂ h₃).symm
    by_cases heq : rest.head? = some '='
    · obtain ⟨value, rfl⟩ := List.head?_eq_some_iff.mp heq
      simp only [escapeBody_cons_of_isPlain (c := '=') (by decide), List.cons.injEq, true_and,
        forall_eq', any_trimStart_escapeBody]
    · have hother : ∀ {cs : List Char}, cs.head? ≠ some '=' → ∀ value, cs ≠ '=' :: value := by
        rintro _ hcs value rfl
        exact hcs rfl
      have heq' : (escapeBody rest).head? ≠ some '=' := by
        rcases head?_escapeBody rest with hh | hh <;> rw [hh]
        · exact heq
        · decide
      exact ⟨fun _ value he => absurd he (hother heq value),
        fun _ value he => absurd he (hother heq' value)⟩
  · have hp' : ¬ "VAR".toList <+: escapeChars cs := fun h =>
      hp (prefix_of_prefix_escapeChars (by decide) h)
    rw [not_prefix_of_var? hp, not_prefix_of_var? hp']

end Declaration

end StoryFlow.Ink
