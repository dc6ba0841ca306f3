import Mathlib.Data.List.Infix
import StoryFlow.Lint.Yarn
import StoryFlow.Proofs.Lint.Pattern
import StoryFlow.Proofs.Text.Identifier
import StoryFlow.Proofs.Text.LineBreaks
import StoryFlow.Yarn.Line

/-! # Escaped text in Yarn

In an escaped text every brace, and every bracket that another one follows, stands behind a
backslash, so it opens neither an expression nor a command. Declarations and jumps are looked for
without regard to backslashes, and they are found in an escaped text where they stand in the text
itself.
-/

namespace StoryFlow.Yarn

open Lint Text

section EscapeBody

variable {c : Char} {cs ds run word : List Char} {r : Char → Bool}

/-- A character that is written as it is wherever it stands. -/
def isPlain (c : Char) : Bool :=
  !isSyntaxChar c && c != '<'

theorem escapeBody_cons (c : Char) (cs : List Char) :
    escapeBody (c :: cs) = '\\' :: c :: escapeBody cs ∨ escapeBody (c :: cs) = c :: escapeBody cs := by
  rw [escapeBody]
  split
  · exact Or.inl rfl
  · exact Or.inr rfl

theorem escapeBody_cons_of_isPlain (hc : isPlain c) (cs : List Char) :
    escapeBody (c :: cs) = c :: escapeBody cs := by
  simp only [isPlain, Bool.and_eq_true, Bool.not_eq_true', bne_iff_ne, ne_eq] at hc
  simp [escapeBody, hc]

theorem escapeBody_append_of_isPlain (hrun : ∀ c ∈ run, isPlain c) (cs : List Char) :
    escapeBody (run ++ cs) = run ++ escapeBody cs :=
  append_of_cons (fun _ hc => escapeBody_cons_of_isPlain hc) hrun cs

/-- Only a bracket depends on the character behind it. -/
theorem escapeBody_append (hds : ds.head? ≠ some '<') (cs : List Char) :
    escapeBody (cs ++ ds) = escapeBody cs ++ escapeBody ds := by
  induction cs with
  | nil => rfl
  | cons c cs ih =>
    have hhead : (cs ++ ds).head? == some '<' ↔ cs.head? == some '<' := by
      cases cs with
      | nil => simpa using hds
      | cons a cs => simp
    rw [List.cons_append, escapeBody, escapeBody, ih]
    simp only [Bool.eq_iff_iff.mpr hhead]
    split <;> rfl

theorem forall_mem_escapeBody (hr : r '\\') (hcs : ∀ c ∈ cs, r c) : ∀ c ∈ escapeBody cs, r c := by
  induction cs with
  | nil => simp [escapeBody]
  | cons c cs ih =>
    rw [List.forall_mem_cons] at hcs
    rcases escapeBody_cons c cs with he | he <;> simpa [he, hr, hcs.1] using ih hcs.2

/-- What a text does not start with, its escaped form does not start with either. -/
theorem takeWhile_escapeBody_cons (hr : r '\\' = false) (hc : r c = false) (cs ds : List Char) :
    (escapeBody (c :: cs) ++ ds).takeWhile r = [] := by
  rcases escapeBody_cons c cs with he | he <;> simp [he, hr, hc]

theorem prefix_of_prefix_escapeBody (hslash : '\\' ∉ word) (hspace : ' ' ∉ word)
    (h : word <+: escapeBody cs ++ ' ' :: ds) : word <+: cs := by
  induction word generalizing cs with
  | nil => exact List.nil_prefix
  | cons a word ih =>
    rw [List.mem_cons, not_or] at hslash hspace
    cases cs with
    | nil => exact absurd (List.cons_prefix_cons.mp h).1.symm hspace.1
    | cons c cs =>
      rcases escapeBody_cons c cs with he | he <;> rw [he] at h
      · exact absurd (List.cons_prefix_cons.mp h).1.symm hslash.1
      · obtain ⟨rfl, hrest⟩ := List.cons_prefix_cons.mp h
        exact List.cons_prefix_cons.mpr ⟨rfl, ih hslash.2 hspace.2 hrest⟩

end EscapeBody

section Shielded

variable {before : Option Char} {c : Char} {cs ds : List Char}

/-- A brace, or a bracket in front of another one. -/
def Opens (c : Char) (cs : List Char) : Prop :=
  c = '\x7b' ∨ c = '<' ∧ cs.head? = some '<'

/-- Whatever opens something stands behind a backslash. -/
inductive Shielded : Option Char → List Char → Prop where
  | nil {before : Option Char} : Shielded before []
  | cons {before : Option Char} {c : Char} {cs : List Char} :
    (Opens c cs → before = some '\\') → Shielded (some c) cs → Shielded before (c :: cs)

theorem shielded_cons_iff : Shielded before (c :: cs) ↔
    (Opens c cs → before = some '\\') ∧ Shielded (some c) cs :=
  ⟨fun | .cons h hs => ⟨h, hs⟩, fun h => .cons h.1 h.2⟩

theorem head?_escapeBody (h : (escapeBody cs).head? = some '<') : cs.head? = some '<' := by
  cases cs with
  | nil => exact h
  | cons c cs =>
    rcases escapeBody_cons c cs with he | he
    · simp [he] at h
    · simpa [he] using h

theorem shielded_escapeBody (before : Option Char) (cs : List Char) :
    Shielded before (escapeBody cs) := by
  induction cs generalizing before with
  | nil => exact .nil
  | cons c cs ih =>
    rw [escapeBody]
    split
    · exact .cons (by simp [Opens]) (.cons (fun _ => rfl) (ih _))
    · rename_i hc
      simp only [isSyntaxChar, Bool.or_eq_true, Bool.and_eq_true, beq_iff_eq, not_or, not_and] at hc
      refine .cons ?_ (ih _)
      rintro (rfl | ⟨rfl, hh⟩)
      · exact absurd rfl hc.1.1.2
      · exact absurd (head?_escapeBody hh) (hc.2 rfl)

theorem shielded_of_forall (hcs : ∀ c ∈ cs, c ≠ '\x7b' ∧ c ≠ '<') : Shielded before cs := by
  induction cs generalizing before with
  | nil => exact .nil
  | cons c cs ih =>
    rw [List.forall_mem_cons] at hcs
    exact .cons (fun ho => by simp [Opens, hcs.1] at ho) (ih hcs.2)

theorem Shielded.append (h : Shielded before cs) (hds : ∀ d ∈ ds, d ≠ '\x7b' ∧ d ≠ '<') :
    Shielded before (cs ++ ds) := by
  induction h with
  | nil => exact shielded_of_forall hds
  | @cons before c cs hopens _ ih =>
    refine .cons (fun ho => hopens (ho.imp_right fun ⟨hc, hh⟩ => ⟨hc, ?_⟩)) ih
    cases cs with
    | nil =>
      cases ds with
      | nil => exact hh
      | cons d ds => exact absurd (Option.some.inj hh) (hds d (by simp)).2
    | cons a cs => exact hh

theorem Shielded.dropWhile (h : Shielded none cs) {r : Char → Bool} (hr : r '\\' = false) :
    Shielded none (cs.dropWhile r) := by
  induction cs with
  | nil => exact h
  | cons c cs ih =>
    rw [List.dropWhile_cons]
    split
    · rename_i hc
      refine ih ?_
      cases cs with
      | nil => exact .nil
      | cons d cs =>
        obtain ⟨hopens, hcs⟩ := shielded_cons_iff.mp (shielded_cons_iff.mp h).2
        refine .cons (fun ho => ?_) hcs
        obtain rfl := Option.some.inj (hopens ho)
        exact absurd hc (by simp [hr])
    · exact h

theorem Shielded.matches_command (h : Shielded before cs) :
    command.matchesFrom before 0 cs = [] := by
  induction h with
  | nil => rfl
  | @cons before c cs hopens _ ih =>
    have hn : command before (c :: cs) = none := by
      unfold command
      split
      · rename_i he
        obtain ⟨rfl, rfl⟩ := List.cons.inj he
        exact if_pos (hopens (Or.inr ⟨rfl, rfl⟩))
      · rfl
    rw [Pattern.matchesFrom, hn]
    exact ih

theorem Shielded.matches_inline (h : Shielded before cs) :
    Lint.inline.matchesFrom before 0 cs = [] := by
  induction h with
  | nil => rfl
  | @cons before c cs hopens _ ih =>
    have hn : Lint.inline before (c :: cs) = none := by
      unfold Lint.inline
      split
      · rename_i he
        obtain ⟨rfl, rfl⟩ := List.cons.inj he
        exact if_neg fun hb => hb.1 (hopens (Or.inl rfl))
      · rfl
    rw [Pattern.matchesFrom, hn]
    exact ih

end Shielded

section Commands

variable {β : Type} {key : List Char → β} {more cs ds run letters : List Char}
  {part : List Char → Option (List Char × Nat)}

theorem isPlain_of {r : Char → Bool} (hr : "\\#[]\x7b\x7d<".toList.any r = false) {c : Char}
    (hc : r c) : isPlain c := by
  have hnot : c ∉ "\\#[]\x7b\x7d<".toList := fun h => List.any_eq_false.mp hr c h hc
  simpa [isPlain, isSyntaxChar, and_assoc] using hnot

theorem isPlain_of_isBlank {c : Char} : isBlank c → isPlain c :=
  isPlain_of (by decide)

/-- What stands behind a text on its line: a space and a tag. -/
def tagEnd (more : List Char) : List Char :=
  ' ' :: '#' :: more

/-- A match in a text, and one in its escaped form with `tail` behind it that has a like part and
ends at the same place. -/
def Alike (key : List Char → β) (tail cs : List Char) (a b : List Char × Nat) : Prop :=
  key b.1 = key a.1 ∧ (escapeBody cs ++ tail).drop b.2 = escapeBody (cs.drop a.2) ++ tail

/-- The part of a command is found alike in a text and in its escaped form in front of a tag. -/
structure Survives (key : List Char → β) (more : List Char)
    (part : List Char → Option (List Char × Nat)) : Prop where
  nil : part [] = none
  tag : part ('#' :: more) = none
  alike : ∀ cs, cs ≠ [] → cs.takeWhile isBlank = [] →
    Option.Rel (Alike key (tagEnd more) cs) (part cs)
      (part (escapeBody cs ++ tagEnd more))

theorem escapeBody_bracket_append (hne : letters ≠ []) (hl : ∀ c ∈ letters, isPlain c)
    (cs : List Char) : escapeBody ('<' :: letters ++ cs) = '<' :: letters ++ escapeBody cs := by
  obtain ⟨l, ls, rfl⟩ := List.exists_cons_of_ne_nil hne
  have hhead : (l :: ls ++ cs).head? ≠ some '<' := by
    rintro h
    obtain rfl := Option.some.inj h
    exact absurd (hl '<' (by simp)) (by decide)
  have happend := escapeBody_append hhead ['<']
  rw [escapeBody_append_of_isPlain hl] at happend
  exact happend

theorem escapeBody_command (hne : letters ≠ []) (hl : ∀ c ∈ letters, isPlain c)
    (hrun : ∀ c ∈ run, isBlank c) (ds : List Char) :
    escapeBody ('<' :: letters ++ (run ++ ds)) = '<' :: letters ++ (run ++ escapeBody ds) := by
  rw [escapeBody_bracket_append hne hl,
    escapeBody_append_of_isPlain fun c hc => isPlain_of_isBlank (hrun c hc)]

/-- Blanks that run on to the tag are followed by no part of a command. -/
theorem Survives.wordCommand_tagEnd (h : Survives key more part) (hrun : ∀ c ∈ run, isBlank c)
    (word : List Char) : wordCommand word part none (word ++ (run ++ tagEnd more)) = none := by
  have hblanks : ∀ c ∈ run ++ [' '], isBlank c :=
    List.forall_mem_append.mpr ⟨hrun, List.forall_mem_singleton.mpr (by decide)⟩
  have htag : ('#' :: more).takeWhile isBlank = [] := by simp [show isBlank '#' = false by decide]
  have hsplit : run ++ tagEnd more = run ++ [' '] ++ '#' :: more := by simp [tagEnd]
  rw [hsplit, wordCommand_append hblanks htag, h.tag]
  split <;> rfl

/-- Where a part of a command is found, the command ends at the same place as in the text. -/
theorem Survives.alike_part (h : Survives key more part) (hne : letters ≠ [])
    (hl : ∀ c ∈ letters, isPlain c) (hrun : ∀ c ∈ run, isBlank c) (hds : ds.takeWhile isBlank = [])
    (hd : ds ≠ []) :
    let ending (found : List Char × Nat) :=
      (found.1, ('<' :: '<' :: letters).length + run.length + found.2)
    Option.Rel (fun a b => Alike key (tagEnd more) ('<' :: letters ++ (run ++ ds))
        (a.1, a.2 - 1) (b.1, b.2 - 1))
      ((part ds).map ending) ((part (escapeBody ds ++ tagEnd more)).map ending) := by
  intro ending
  have halike := h.alike ds hd hds
  generalize part ds = a, part (escapeBody ds ++ tagEnd more) = b at halike
  cases halike with
  | none => exact .none
  | some hab =>
    have hlength : ∀ k, ('<' :: '<' :: letters).length + run.length + k - 1 =
        ('<' :: letters ++ run).length + k := fun k => by simp; omega
    refine .some ⟨hab.1, ?_⟩
    simp only [ending, hlength]
    rw [escapeBody_command hne hl hrun, ← List.append_assoc, ← List.append_assoc,
      List.append_assoc _ _ (tagEnd more), List.drop_length_add_append,
      List.drop_length_add_append]
    exact hab.2

/-- A command that a text has from the bracket before `cs` on is found alike in the escaped text. -/
theorem Survives.alike_command (h : Survives key more part) (hne : letters ≠ [])
    (hl : letters.all isPlain) (hspace : ' ' ∉ letters) (cs : List Char) :
    Option.Rel (fun a b => Alike key (tagEnd more) cs (a.1, a.2 - 1) (b.1, b.2 - 1))
      (wordCommand ('<' :: '<' :: letters) part none ('<' :: cs))
      (wordCommand ('<' :: '<' :: letters) part none ('<' :: (escapeBody cs ++ tagEnd more))) := by
  have hplain : ∀ c ∈ letters, isPlain c := List.all_eq_true.mp hl
  by_cases hp : '<' :: letters <+: cs
  · obtain ⟨rest, rfl⟩ := hp
    obtain ⟨run, ds, rfl, hrun, hds⟩ := exists_run isBlank rest
    have hassoc : '<' :: ('<' :: letters ++ (run ++ escapeBody ds) ++ tagEnd more) =
        '<' :: '<' :: letters ++ (run ++ (escapeBody ds ++ tagEnd more)) := by simp
    rw [escapeBody_command hne hplain hrun, hassoc, ← List.cons_append,
      wordCommand_append hrun hds]
    cases ds with
    | nil =>
      rw [escapeBody, List.nil_append, h.wordCommand_tagEnd hrun, h.nil]
      split <;> exact .none
    | cons d ds =>
      have hd : isBlank d = false := by simpa using hds
      rw [wordCommand_append hrun (takeWhile_escapeBody_cons (by decide) hd ds _)]
      split
      · exact .none
      · exact h.alike_part hne hplain hrun hds (List.cons_ne_nil d ds)
  · rw [wordCommand_eq_none, wordCommand_eq_none]
    · exact .none
    · refine fun hw => hp (prefix_of_prefix_escapeBody ?_ ?_ (List.cons_prefix_cons.mp hw).2)
      · rw [List.mem_cons, not_or]
        exact ⟨by decide, fun hc => absurd (hplain _ hc) (by decide)⟩
      · rw [List.mem_cons, not_or]
        exact ⟨by decide, hspace⟩
    · exact fun hw => hp (List.cons_prefix_cons.mp hw).2

theorem wordCommand_cons_of_ne {c : Char} (hc : c ≠ '<') (cs : List Char) :
    wordCommand ('<' :: letters) part none (c :: cs) = none :=
  wordCommand_eq_none fun hp => hc (List.cons_prefix_cons.mp hp).1.symm

/-- The commands of an escaped text are those of the text. -/
theorem Survives.map_all_escapeBody (h : Survives key more part) (hne : letters ≠ [])
    (hl : letters.all isPlain) (hspace : ' ' ∉ letters) (hmore : ∀ c ∈ more, c ≠ '<')
    (cs : List Char) :
    ((wordCommand ('<' :: '<' :: letters) part).all (escapeBody cs ++ tagEnd more)).map key =
      ((wordCommand ('<' :: '<' :: letters) part).all cs).map key := by
  have hahead : (wordCommand ('<' :: '<' :: letters) part).LooksAhead := wordCommand_looksAhead
  have hother : ∀ {c : Char}, c ≠ '<' → ∀ cs,
      (wordCommand ('<' :: '<' :: letters) part).all (c :: cs) =
        (wordCommand ('<' :: '<' :: letters) part).all cs :=
    fun hc cs => hahead.all_of_none (wordCommand_cons_of_ne hc cs)
  match cs with
  | [] =>
    have htail : ∀ c ∈ tagEnd more, c ≠ '<' :=
      List.forall_mem_cons.mpr ⟨by decide, List.forall_mem_cons.mpr ⟨by decide, hmore⟩⟩
    have hall := hahead.all_append (fun c hc => wordCommand_cons_of_ne (htail c hc)) []
    rw [List.append_nil] at hall
    rw [escapeBody, List.nil_append, hall]
  | c :: cs =>
    have hbody : (wordCommand ('<' :: '<' :: letters) part).all
          (escapeBody (c :: cs) ++ tagEnd more) =
        (wordCommand ('<' :: '<' :: letters) part).all
          (c :: (escapeBody cs ++ tagEnd more)) := by
      rcases escapeBody_cons c cs with he | he <;> rw [he]
      · exact hother (by decide) _
      · rfl
    rw [hbody]
    by_cases hc : c = '<'
    · subst hc
      have halike := h.alike_command hne hl hspace cs
      generalize ha : wordCommand ('<' :: '<' :: letters) part none ('<' :: cs) = a,
        hb : wordCommand ('<' :: '<' :: letters) part none
          ('<' :: (escapeBody cs ++ tagEnd more)) = b at halike
      cases halike with
      | none =>
        rw [hahead.all_of_none ha, hahead.all_of_none hb]
        exact h.map_all_escapeBody hne hl hspace hmore cs
      | some hab =>
        rw [hahead.all_of_some ha, hahead.all_of_some hb, hab.2, List.map_cons, List.map_cons,
          hab.1, h.map_all_escapeBody hne hl hspace hmore]
    · rw [hother hc, hother hc]
      exact h.map_all_escapeBody hne hl hspace hmore cs
termination_by cs.length
decreasing_by
  all_goals simp only [List.length_cons, List.length_drop]
  all_goals omega

/-- The name of a variable stands in an escaped text as it does in the text. -/
theorem survives_dollarName (more : List Char) : Survives id more (dollarName none) where
  nil := rfl
  tag := rfl
  alike cs hne _ := by
    obtain ⟨c, cs, rfl⟩ := List.exists_cons_of_ne_nil hne
    by_cases hc : c = '$'
    · subst hc
      obtain ⟨name, rest, rfl, hname, hrest⟩ := exists_run isWordChar cs
      have hescape : escapeBody ('$' :: (name ++ rest)) = '$' :: (name ++ escapeBody rest) := by
        rw [escapeBody_cons_of_isPlain (by decide),
          escapeBody_append_of_isPlain fun c hc => isPlain_of (by decide) (hname c hc)]
      have hstop : (escapeBody rest ++ tagEnd more).takeWhile isWordChar = [] := by
        cases rest with
        | nil => rfl
        | cons r rest => exact takeWhile_escapeBody_cons (by decide) (by simpa using hrest) rest _
      rw [hescape, List.cons_append, List.append_assoc, dollarName, dollarName,
        takeWhile_append_of_stop hname hrest, takeWhile_append_of_stop hname hstop]
      split
      · exact .none
      · exact .some ⟨rfl, by simp [hescape]⟩
    · have hnone : ∀ {c : Char}, c ≠ '$' → ∀ ds, dollarName none (c :: ds) = none := by
        intro c hc ds
        unfold dollarName
        split
        · rename_i he
          exact absurd (List.cons.inj he).1 hc
        · rfl
      rcases escapeBody_cons c cs with he | he <;> rw [he, hnone hc, List.cons_append]
      · rw [hnone (by decide)]
        exact .none
      · rw [hnone hc]
        exact .none

/-- The target of a jump, by the blanks and brackets behind it. -/
def jumpTarget (cs : List Char) : Option (List Char × Nat) :=
  let target := cs.takeWhile fun c => c ≠ '>' && !isBlank c
  let gap := (cs.drop target.length).takeWhile isBlank
  if !target.isEmpty ∧ [ '>', '>' ].isPrefixOf (cs.drop (target.length + gap.length)) then
    some (target, target.length + gap.length + 2)
  else none

/-- A character of a target, which ends at a blank or a closing bracket. -/
def isTargetChar (c : Char) : Bool :=
  c ≠ '>' && !isBlank c

theorem jumpTarget_append {target gap rest : List Char} (htarget : ∀ c ∈ target, isTargetChar c)
    (hstop : (gap ++ rest).takeWhile isTargetChar = []) (hgap : ∀ c ∈ gap, isBlank c)
    (hrest : rest.takeWhile isBlank = []) :
    jumpTarget (target ++ (gap ++ rest)) =
      if target ≠ [] ∧ ['>', '>'] <+: rest then some (target, target.length + gap.length + 2)
      else none := by
  have htake : (target ++ (gap ++ rest)).takeWhile (fun c => c ≠ '>' && !isBlank c) = target :=
    takeWhile_append_of_stop htarget hstop
  simp only [jumpTarget, htake, List.drop_left, takeWhile_append_of_stop hgap hrest,
    List.drop_length_add_append, List.isPrefixOf_iff_prefix, ne_eq, Bool.not_eq_true',
    List.isEmpty_eq_false_iff]

theorem escapeBody_eq_nil_iff : escapeBody cs = [] ↔ cs = [] := by
  cases cs with
  | nil => simp [escapeBody]
  | cons c cs => rcases escapeBody_cons c cs with he | he <;> simp [he]

theorem startsWithDigit_escapeBody (cs : List Char) :
    startsWithDigit (escapeBody cs) = startsWithDigit cs := by
  cases cs with
  | nil => rfl
  | cons c cs =>
    by_cases hc : isPlain c
    · rw [escapeBody_cons_of_isPlain hc]
      rfl
    · have hd : c.isDigit = false := by
        by_contra h
        exact hc (isPlain_of (r := Char.isDigit) (by decide) (by simpa using h))
      rcases escapeBody_cons c cs with he | he <;> simp [he, startsWithDigit, hd]

theorem takeWhile_isTargetChar_escapeBody (h : cs.takeWhile isTargetChar = [])
    (more : List Char) : (escapeBody cs ++ tagEnd more).takeWhile isTargetChar = [] := by
  cases cs with
  | nil => rfl
  | cons c cs =>
    have hc : isTargetChar c = false := by simpa using h
    have hp : isPlain c := isPlain_of (r := fun c => !isTargetChar c) (by decide) (by simp [hc])
    simp [escapeBody_cons_of_isPlain hp, hc]

theorem prefix_close_escapeBody {more : List Char} :
    ['>', '>'] <+: escapeBody cs ++ tagEnd more ↔ ['>', '>'] <+: cs := by
  constructor
  · exact prefix_of_prefix_escapeBody (by decide) (by decide)
  · rintro ⟨rest, rfl⟩
    exact ⟨escapeBody rest ++ tagEnd more, rfl⟩

theorem jumpTarget_of_not_mem (h : '>' ∉ cs) : jumpTarget cs = none := by
  obtain ⟨target, es, rfl, htarget, hstop⟩ := exists_run isTargetChar cs
  obtain ⟨gap, rest, rfl, hgap, hrest⟩ := exists_run isBlank es
  rw [jumpTarget_append htarget hstop hgap hrest, if_neg]
  rintro ⟨-, suffix, rfl⟩
  simp at h

/-- The target of a jump stands escaped in an escaped text, and starts with a digit if it did. -/
theorem survives_jumpTarget {more : List Char} (hmore : '>' ∉ more) :
    Survives startsWithDigit more jumpTarget where
  nil := rfl
  tag := jumpTarget_of_not_mem (by simpa using hmore)
  alike cs _ _ := by
    obtain ⟨target, es, rfl, htarget, hstop⟩ := exists_run isTargetChar cs
    obtain ⟨gap, rest, rfl, hgap, hrest⟩ := exists_run isBlank es
    have hhead : (gap ++ rest).head? ≠ some '<' := by
      intro h
      obtain ⟨ds, hds⟩ := List.head?_eq_some_iff.mp h
      rw [hds] at hstop
      exact absurd hstop (by simp [show isTargetChar '<' by decide])
    have hgaps : escapeBody (gap ++ rest) = gap ++ escapeBody rest :=
      escapeBody_append_of_isPlain (fun c hc => isPlain_of_isBlank (hgap c hc)) rest
    have hescape : escapeBody (target ++ (gap ++ rest)) =
        escapeBody target ++ (gap ++ escapeBody rest) := by
      rw [escapeBody_append hhead, hgaps]
    have htarget' : ∀ c ∈ escapeBody target, isTargetChar c :=
      forall_mem_escapeBody (by decide) htarget
    have hstop' := takeWhile_isTargetChar_escapeBody hstop more
    rw [hgaps, List.append_assoc] at hstop'
    rw [hescape, jumpTarget_append htarget hstop hgap hrest, List.append_assoc, List.append_assoc]
    cases rest with
    | nil =>
      -- The blanks behind the target run on to the tag, which closes no command.
      have hsplit : gap ++ (escapeBody [] ++ tagEnd more) = gap ++ [' '] ++ '#' :: more := by
        simp [escapeBody, tagEnd]
      have hgap' : ∀ c ∈ gap ++ [' '], isBlank c :=
        List.forall_mem_append.mpr ⟨hgap, List.forall_mem_singleton.mpr (by decide)⟩
      rw [hsplit] at hstop' ⊢
      rw [jumpTarget_append htarget' hstop' hgap' (by simp [show isBlank '#' = false by decide])]
      simp
    | cons r rest =>
      have hrest' := takeWhile_escapeBody_cons (r := isBlank) (by decide) (by simpa using hrest) rest
        (tagEnd more)
      rw [jumpTarget_append htarget' hstop' hgap hrest']
      simp only [ne_eq, escapeBody_eq_nil_iff, prefix_close_escapeBody]
      split
      · rename_i hc
        obtain ⟨-, suffix, hsuffix⟩ := hc
        have hclose : escapeBody (r :: rest) = '>' :: '>' :: escapeBody suffix := hsuffix ▸ rfl
        refine .some ⟨startsWithDigit_escapeBody target, ?_⟩
        rw [hescape, hclose, ← hsuffix]
        simp only [List.append_assoc, Nat.add_assoc, List.drop_length_add_append]
        rfl
      · exact .none

end Commands

section Speech

variable {word : List Char} {part : List Char → Option (List Char × Nat)} (text : String) (n : Nat)

/-- A line of a text for which no speaker is named, as it is looked at by a check. -/
def speechLine : List Char :=
  trim ((Content.speech none text).write n).toList

/-- What a tag holds behind its mark. -/
def tagLetters : List Char :=
  "line:line_".toList ++ (fourDigits n).toList

theorem toList_write_speech : ((Content.speech none text).write n).toList =
    escapeChars text.toList ++ tagEnd (tagLetters n) := by
  have htag : " ".toList ++ "#line:line_".toList = tagEnd "line:line_".toList := by decide
  simp only [Content.write, escape, onChars, tag, String.toList_append, String.toList_ofList,
    List.append_assoc]
  rw [← List.append_assoc " ".toList, htag]
  rfl

theorem mem_tagLetters {c : Char} (h : c ∈ tagLetters n) :
    c ∈ "line:line_".toList ∨ c.isDigit :=
  (List.mem_append.mp h).imp_right isDigit_of_mem_fourDigits

theorem isBlank_of_isDigit {c : Char} (hc : c.isDigit) : isBlank c = false :=
  isBlank_of_toNat (toNat_of_isWordChar (by simp [isWordChar, Char.isAlphanum, hc]))

theorem isBlank_of_mem_tagLetters {c : Char} (h : c ∈ tagLetters n) : isBlank c = false := by
  have hword : "line:line_".toList.any isBlank = false := by decide
  exact (mem_tagLetters n h).elim (fun hc => Bool.eq_false_iff.mpr (List.any_eq_false.mp hword c hc))
    isBlank_of_isDigit

theorem not_mem_tagLetters {c : Char} (hw : c ∉ "line:line_".toList) (hd : c.isDigit = false) :
    c ∉ tagLetters n := fun h =>
  (mem_tagLetters n h).elim hw fun h => Bool.false_ne_true (hd.symm.trans h)

theorem speechLine_eq :
    speechLine text n = (escapeChars text.toList ++ tagEnd (tagLetters n)).dropWhile isBlank := by
  rw [speechLine, toList_write_speech]
  refine trim_of_getLast fun c hc => isBlank_of_mem_tagLetters n ?_
  have hne : tagLetters n ≠ [] := List.append_ne_nil_of_left_ne_nil (by decide) _
  obtain ⟨l, ls, hl⟩ := List.exists_cons_of_ne_nil hne
  rw [tagEnd, hl] at hc
  rw [hl]
  exact List.mem_of_getLast? (by simpa using hc)

theorem shielded_speechLine : Shielded none (speechLine text n) := by
  have hend : ∀ c ∈ tagEnd (tagLetters n), c ≠ '\x7b' ∧ c ≠ '<' := by
    refine List.forall_mem_cons.mpr ⟨by decide, List.forall_mem_cons.mpr ⟨by decide, ?_⟩⟩
    exact fun c hc => ⟨fun h => not_mem_tagLetters n (by decide) (by decide) (h ▸ hc),
      fun h => not_mem_tagLetters n (by decide) (by decide) (h ▸ hc)⟩
  rw [speechLine_eq]
  refine (Shielded.append ?_ hend).dropWhile (by decide)
  simp only [escapeChars]
  split
  · exact .cons (by simp [Opens]) (shielded_escapeBody _ _)
  · exact .cons (by simp [Opens]) (shielded_escapeBody _ _)
  · exact shielded_escapeBody _ _

theorem mem_speechLine : '#' ∈ speechLine text n := by
  have hmem : '#' ∈ escapeChars text.toList ++ tagEnd (tagLetters n) := by simp [tagEnd]
  rw [speechLine_eq]
  rw [← List.takeWhile_append_dropWhile (p := isBlank)
    (l := escapeChars text.toList ++ tagEnd (tagLetters n))] at hmem
  exact (List.mem_append.mp hmem).resolve_left fun h =>
    absurd (List.mem_takeWhile_imp h) (by decide)

/-- Neither the blanks before a text nor a backslash there matter to a command. -/
theorem wordCommand_all_speechLine :
    (wordCommand ('<' :: word) part).all (speechLine text n) =
      (wordCommand ('<' :: word) part).all (escapeBody text.toList ++ tagEnd (tagLetters n)) := by
  have hahead : (wordCommand ('<' :: word) part).LooksAhead := wordCommand_looksAhead
  have hblank : ∀ cs, (wordCommand ('<' :: word) part).all (cs.dropWhile isBlank) =
      (wordCommand ('<' :: word) part).all cs := by
    intro cs
    conv_rhs => rw [← List.takeWhile_append_dropWhile (p := isBlank) (l := cs)]
    refine (hahead.all_append (fun c hc => wordCommand_cons_of_ne ?_) _).symm
    rintro rfl
    exact absurd (List.mem_takeWhile_imp hc) (by decide)
  have hslash : ∀ cs, (wordCommand ('<' :: word) part).all ('\\' :: cs) =
      (wordCommand ('<' :: word) part).all cs :=
    fun cs => hahead.all_of_none (wordCommand_cons_of_ne (by decide) cs)
  rw [speechLine_eq, hblank]
  simp only [escapeChars]
  split <;> simp only [List.cons_append, hslash]

theorem declaration_speechLine :
    declaration.all (speechLine text n) = declaration.all text.toList := by
  have hmore : ∀ c ∈ tagLetters n, c ≠ '<' := fun c hc h =>
    not_mem_tagLetters n (by decide) (by decide) (h ▸ hc)
  have hall := (survives_dollarName (tagLetters n)).map_all_escapeBody
    (show "declare".toList ≠ [] by decide) (by decide) (by decide) hmore text.toList
  rw [List.map_id, List.map_id, ← wordCommand_all_speechLine] at hall
  exact hall

theorem jump_speechLine :
    (jump.all (speechLine text n)).map startsWithDigit =
      (jump.all text.toList).map startsWithDigit := by
  have hmore : ∀ c ∈ tagLetters n, c ≠ '<' := fun c hc h =>
    not_mem_tagLetters n (by decide) (by decide) (h ▸ hc)
  have hall := (survives_jumpTarget (not_mem_tagLetters n (c := '>') (by decide)
    (by decide))).map_all_escapeBody (show "jump".toList ≠ [] by decide) (by decide)
      (by decide) hmore
      text.toList
  rw [← wordCommand_all_speechLine] at hall
  exact hall

end Speech

end StoryFlow.Yarn
