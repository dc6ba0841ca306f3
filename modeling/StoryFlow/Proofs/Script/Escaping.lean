import StoryFlow.Proofs.Ink.Escape
import StoryFlow.Proofs.Text.Escapes
import StoryFlow.Proofs.Yarn.Escape

/-! # Escaping is exact

An escaped text is read back as the text that it was made from, in both script formats. What would
be syntax never stands bare in it, and what a backslash cannot shield is broken up.
-/

namespace StoryFlow

open Text

namespace Yarn

variable {a c : Char} {cs word : List Char}

theorem ne_slash_of_not_escaped (hc : ¬ (isSyntaxChar c || (c == '<' && cs.head? == some '<'))) :
    c ≠ '\\' := by
  rintro rfl
  exact hc rfl

theorem unescape_escapeBody (cs : List Char) : unescape (escapeBody cs) = cs := by
  induction cs with
  | nil => rfl
  | cons c cs ih =>
    rw [escapeBody]
    split
    · rw [unescape_slash_cons, ih]
    · rename_i hc
      rw [unescape_cons_of_ne (ne_slash_of_not_escaped hc), ih]

/-- Syntax characters, and brackets in front of another one, are shielded. -/
theorem not_bare_escapeBody (ha : a ≠ '\\')
    (hw : isSyntaxChar a ∨ a = '<' ∧ word.head? = some '<') (cs : List Char) :
    ¬ Bare (a :: word) (escapeBody cs) := by
  induction cs with
  | nil => exact not_bare_nil
  | cons c cs ih =>
    rw [escapeBody]
    split
    · rwa [bare_slash_cons ha]
    · rename_i hc
      rw [bare_cons_of_ne (ne_slash_of_not_escaped hc), or_iff_left ih]
      intro hp
      obtain ⟨rfl, rest, hrest⟩ := List.cons_prefix_cons.mp hp
      rcases hw with hs | ⟨rfl, hh⟩
      · simp [hs] at hc
      · have hbody : (escapeBody cs).head? = some '<' := by
          rw [← hrest, List.head?_append, hh]
          rfl
        simp [head?_escapeBody hbody] at hc

theorem escapeChars_cases (cs : List Char) :
    ((escapeBody cs).head? = some '-' ∨ (escapeBody cs).head? = some '<') ∧
      escapeChars cs = '\\' :: escapeBody cs ∨
    (∀ c ∈ ['-', '<'], (escapeBody cs).head? ≠ some c) ∧ escapeChars cs = escapeBody cs := by
  simp only [escapeChars]
  split
  · rename_i h
    exact Or.inl ⟨Or.inl (congrArg List.head? h), rfl⟩
  · rename_i h
    exact Or.inl ⟨Or.inr (congrArg List.head? h), rfl⟩
  · rename_i hdash hbracket
    refine Or.inr ⟨?_, rfl⟩
    simp only [List.forall_mem_cons, List.head?_eq_some_iff, ne_eq, not_exists]
    exact ⟨hdash, hbracket, by simp⟩

/-- The character that a backslash is put in front of is none itself. -/
theorem head?_ne_slash (h : (escapeBody cs).head? = some '-' ∨ (escapeBody cs).head? = some '<') :
    (escapeBody cs).head? ≠ some '\\' := by
  rcases h with h | h <;> simp [h]

theorem not_bare_escapeChars (ha : a ≠ '\\')
    (hw : isSyntaxChar a ∨ a = '<' ∧ word.head? = some '<') (cs : List Char) :
    ¬ Bare (a :: word) (escapeChars cs) := by
  rcases escapeChars_cases cs with ⟨hh, he⟩ | ⟨-, he⟩ <;> rw [he]
  · exact fun h => not_bare_escapeBody ha hw cs (h.of_slash ha (head?_ne_slash hh))
  · exact not_bare_escapeBody ha hw cs

theorem unescape_escapeChars (cs : List Char) : unescape (escapeChars cs) = cs := by
  rcases escapeChars_cases cs with ⟨hh, he⟩ | ⟨-, he⟩ <;> rw [he]
  · rw [unescape_slash (head?_ne_slash hh), unescape_escapeBody]
  · exact unescape_escapeBody cs

/-- A text can be read back from its escaped form, in which no syntax character and no command
stands bare, and which starts no option and no command. -/
theorem exactlyEscaped (text : String) :
    ExactlyEscaped text.toList (escape text).toList
      [['#'], ['['], [']'], ['\x7b'], ['\x7d'], ['<', '<']] [] ['-', '<'] := by
  rw [escape, onChars, String.toList_ofList]
  refine ⟨unescape_escapeChars _, ?_, by simp, ?_⟩
  · simp only [List.forall_mem_cons]
    refine ⟨?_, ?_, ?_, ?_, ?_, ?_, by simp⟩ <;>
      exact not_bare_escapeChars (by decide) (by decide) _
  · rcases escapeChars_cases text.toList with ⟨-, he⟩ | ⟨hh, he⟩ <;> rw [he]
    · simp
    · exact hh

end Yarn

namespace Ink

variable {a b c d : Char} {cs : List Char}

theorem ne_slash_of_not_isSyntaxChar (hc : isSyntaxChar c = false) : c ≠ '\\' := by
  rintro rfl
  cases hc

theorem head?_ne_slash (h : cs.head?.any fun c => !isSyntaxChar c) :
    (escapeBody cs).head? ≠ some '\\' := by
  cases cs with
  | nil => simp at h
  | cons c cs =>
    have hc : isSyntaxChar c = false := by simpa using h
    have hne := ne_slash_of_not_isSyntaxChar hc
    rcases escapeBody_cons c cs with ⟨hs, -⟩ | ⟨-, -, he⟩ | ⟨-, -, he⟩
    · simp [hc] at hs
    · simpa [he] using hne
    · simpa [he] using hne

theorem unescape_escapeBody (cs : List Char) : unescape (escapeBody cs) = cs := by
  induction cs with
  | nil => rfl
  | cons c cs ih =>
    rcases escapeBody_cons c cs with ⟨-, he⟩ | ⟨hc, ho, he⟩ | ⟨hc, -, he⟩ <;> rw [he]
    · rw [unescape_slash_cons, ih]
    · rw [unescape_cons_of_ne (ne_slash_of_not_isSyntaxChar hc),
        unescape_slash (head?_ne_slash (head?_of_opensPair ho)), ih]
    · rw [unescape_cons_of_ne (ne_slash_of_not_isSyntaxChar hc), ih]

theorem not_slash_of_opensPair (hp : opensPair a (some b)) : a ≠ '\\' ∧ b ≠ '\\' := by
  simp only [opensPair, Option.some_beq_some, Bool.or_eq_true, Bool.and_eq_true, beq_iff_eq] at hp
  rcases hp with ⟨rfl, rfl⟩ | ⟨rfl, rfl⟩ <;> decide

theorem not_infix_cons (hc : c = a → cs.head? ≠ some b) (hcs : ¬ [a, b] <:+: cs) :
    ¬ [a, b] <:+: c :: cs := by
  intro h
  rcases List.infix_cons_iff.mp h with hprefix | hinfix
  · obtain ⟨rfl, rest, hrest⟩ := List.cons_prefix_cons.mp hprefix
    exact hc rfl (by simp [← hrest])
  · exact hcs hinfix

/-- Arrows and comment marks are broken up. -/
theorem not_infix_escapeBody (hp : opensPair a (some b)) (cs : List Char) :
    ¬ [a, b] <:+: escapeBody cs := by
  obtain ⟨ha, hb⟩ := not_slash_of_opensPair hp
  induction cs with
  | nil => simp [escapeBody]
  | cons c cs ih =>
    rcases escapeBody_cons c cs with ⟨hc, he⟩ | ⟨-, -, he⟩ | ⟨-, ho, he⟩ <;> rw [he]
    · refine not_infix_cons (fun h => absurd h.symm ha) (not_infix_cons ?_ ih)
      rintro rfl
      simp only [opensPair, Bool.or_eq_true, Bool.and_eq_true, beq_iff_eq] at hp
      rcases hp with ⟨rfl, -⟩ | ⟨rfl, -⟩ <;> cases hc
    · refine not_infix_cons (fun _ => ?_) (not_infix_cons (fun h => absurd h.symm ha) ih)
      simpa using hb.symm
    · refine not_infix_cons ?_ ih
      rintro rfl hh
      rcases head?_escapeBody cs with hcs | hcs <;> rw [hcs] at hh
      · simp [hh, hp] at ho
      · exact hb (Option.some.inj hh).symm

theorem not_infix_escapeChars (hp : opensPair a (some b)) (cs : List Char) :
    ¬ [a, b] <:+: escapeChars cs := by
  have hbody := not_infix_escapeBody hp cs
  rcases escapeChars_cases cs with ⟨-, he⟩ | ⟨-, he⟩ <;> rw [he]
  · exact not_infix_cons (fun h => absurd h.symm (not_slash_of_opensPair hp).1) hbody
  · exact hbody

theorem unescape_escapeChars (cs : List Char) : unescape (escapeChars cs) = cs := by
  rcases escapeChars_cases cs with ⟨hs, he⟩ | ⟨-, he⟩ <;> rw [he]
  · have hh : (escapeBody cs).head? ≠ some '\\' := by
      intro hh
      rw [hh] at hs
      cases hs
    rw [unescape_slash hh, unescape_escapeBody]
  · exact unescape_escapeBody cs

/-- A text can be read back from its escaped form, in which no syntax character stands bare and no
arrow and no comment stands at all, and which starts no choice, no gather and no header. -/
theorem exactlyEscaped (text : String) :
    ExactlyEscaped text.toList (escape text).toList
      [['['], [']'], ['\x7b'], ['\x7d'], ['#'], ['|'], ['~']] [['-', '>'], ['/', '/']]
      ['*', '+', '-', '='] := by
  rw [escape, onChars, String.toList_ofList]
  refine ⟨unescape_escapeChars _, ?_, ?_, ?_⟩
  · have hbare : ∀ {ch}, isSyntaxChar ch → ch ≠ '\\' → ¬ Bare [ch] (escapeChars text.toList) :=
      fun hs hch => (countUnescaped_eq_zero_iff hch _).mp (countUnescaped_escapeChars hs _)
    simp only [List.forall_mem_cons]
    refine ⟨?_, ?_, ?_, ?_, ?_, ?_, ?_, by simp⟩ <;> exact hbare rfl (by decide)
  · simp only [List.forall_mem_cons]
    exact ⟨not_infix_escapeChars rfl _, not_infix_escapeChars rfl _, by simp⟩
  · have hstarts : ∀ c ∈ ['*', '+', '-', '='], startsSyntax c := by
      simp only [List.forall_mem_cons]
      exact ⟨rfl, rfl, rfl, rfl, by simp⟩
    intro c hc hh
    rcases head?_escapeChars hh with rfl | ⟨-, hs⟩
    · cases hstarts '\\' hc
    · simp [hstarts c hc] at hs

end Ink

/-- In both formats a text can be read back from its escaped form, in which nothing that would be
syntax stands bare. -/
theorem escapes_exact (text : String) :
    ExactlyEscaped text.toList (Yarn.escape text).toList
        [['#'], ['['], [']'], ['\x7b'], ['\x7d'], ['<', '<']] [] ['-', '<'] ∧
      ExactlyEscaped text.toList (Ink.escape text).toList
        [['['], [']'], ['\x7b'], ['\x7d'], ['#'], ['|'], ['~']] [['-', '>'], ['/', '/']]
        ['*', '+', '-', '='] :=
  ⟨Yarn.exactlyEscaped text, Ink.exactlyEscaped text⟩

end StoryFlow
