import StoryFlow.Proofs.Lint.Codes
import StoryFlow.Proofs.Lint.Insert
import StoryFlow.Proofs.Text.Runs

/-! # The bodies of a Yarn script

Outside of bodies a line of dashes opens one, and in a body a line of equals signs closes it. So a
script is a header alone, a header with a body that runs to the end, or a header with a closed body
and one more script behind it. A walk through a header notes titles and nothing else.
-/

namespace StoryFlow.Lint.Yarn

open Text

def bodyStart : List Char := "---".toList

def bodyEnd : List Char := "===".toList

/-- The lines of a body, and whether a line closes it. -/
structure Body where
  lines : List (List Char)
  closed : Bool

/-- A header, and the body that it leads to unless the script ends before. -/
structure Section where
  head : List (List Char)
  body : Option Body

def sections (texts : List (List Char)) : List Section :=
  match _h : texts.dropWhile (· ≠ bodyStart) with
  | [] => [⟨texts, none⟩]
  | _ :: behind =>
    ⟨texts.takeWhile (· ≠ bodyStart),
        some ⟨behind.takeWhile (· ≠ bodyEnd), behind.contains bodyEnd⟩⟩ ::
      sections (behind.dropWhile (· ≠ bodyEnd)).tail
termination_by texts.length
decreasing_by
  have hstart := List.length_dropWhile_le (· ≠ bodyStart) texts
  have hend := List.length_dropWhile_le (· ≠ bodyEnd) behind
  rw [_h, List.length_cons] at hstart
  rw [List.length_tail]
  omega

def bodies (texts : List (List Char)) : List Body :=
  (sections texts).filterMap Section.body

/-- The lines that stand in no body and open none. -/
def headLines (texts : List (List Char)) : List (List Char) :=
  (sections texts).flatMap Section.head

section Shapes

variable {mark : List Char} {head body behind : List (List Char)}

theorem takeWhile_ne (h : mark ∉ head) :
    (head ++ mark :: behind).takeWhile (· ≠ mark) = head := by
  apply takeWhile_append_of_stop
  · intro text ht
    exact decide_eq_true fun he => h (he ▸ ht)
  · simp

theorem dropWhile_ne (h : mark ∉ head) :
    (head ++ mark :: behind).dropWhile (· ≠ mark) = mark :: behind := by
  apply dropWhile_append_of_stop
  · intro text ht
    exact decide_eq_true fun he => h (he ▸ ht)
  · simp

theorem dropWhile_ne_eq_nil (h : mark ∉ head) : head.dropWhile (· ≠ mark) = [] := by
  rw [List.dropWhile_eq_nil_iff]
  intro text ht
  exact decide_eq_true fun he => h (he ▸ ht)

theorem takeWhile_ne_eq_self (h : mark ∉ head) : head.takeWhile (· ≠ mark) = head := by
  rw [List.takeWhile_eq_self_iff]
  intro text ht
  exact decide_eq_true fun he => h (he ▸ ht)

theorem sections_header (hh : bodyStart ∉ head) : sections head = [⟨head, none⟩] := by
  rw [sections]
  split
  · rfl
  · rename_i heq
    rw [dropWhile_ne_eq_nil hh] at heq
    exact nomatch heq

theorem sections_open (hh : bodyStart ∉ head) (hb : bodyEnd ∉ body) :
    sections (head ++ bodyStart :: body) =
      [⟨head, some ⟨body, false⟩⟩, ⟨[], none⟩] := by
  rw [sections]
  split
  · rename_i heq
    rw [dropWhile_ne hh] at heq
    exact nomatch heq
  · rename_i heq
    rw [dropWhile_ne hh] at heq
    obtain ⟨-, rfl⟩ := List.cons.inj heq
    rw [takeWhile_ne hh, takeWhile_ne_eq_self hb, dropWhile_ne_eq_nil hb,
      List.tail_nil, sections_header List.not_mem_nil]
    simp [hb]

theorem sections_closed (hh : bodyStart ∉ head) (hb : bodyEnd ∉ body) :
    sections (head ++ bodyStart :: (body ++ bodyEnd :: behind)) =
      ⟨head, some ⟨body, true⟩⟩ :: sections behind := by
  rw [sections]
  split
  · rename_i heq
    rw [dropWhile_ne hh] at heq
    exact nomatch heq
  · rename_i heq
    rw [dropWhile_ne hh] at heq
    obtain ⟨-, rfl⟩ := List.cons.inj heq
    rw [takeWhile_ne hh, takeWhile_ne hb, dropWhile_ne hb, List.tail_cons]
    simp

/-- Every script has one of the three shapes. -/
theorem script_induction {P : List (List Char) → Prop}
    (header : ∀ head, bodyStart ∉ head → P head)
    (opened : ∀ head body, bodyStart ∉ head → bodyEnd ∉ body → P (head ++ bodyStart :: body))
    (closed : ∀ head body behind, bodyStart ∉ head → bodyEnd ∉ body → P behind →
      P (head ++ bodyStart :: (body ++ bodyEnd :: behind)))
    (texts : List (List Char)) : P texts := by
  induction hn : texts.length using Nat.strongRecOn generalizing texts with
  | _ n ih =>
    by_cases hs : bodyStart ∈ texts
    · obtain ⟨head, rest, rfl, hh⟩ := List.eq_append_cons_of_mem hs
      by_cases he : bodyEnd ∈ rest
      · obtain ⟨body, behind, rfl, hb⟩ := List.eq_append_cons_of_mem he
        refine closed head body behind hh hb (ih behind.length ?_ behind rfl)
        simp only [← hn, List.length_append, List.length_cons]
        omega
      · exact opened head rest hh he
    · exact header texts hs

end Shapes

section Walk

variable (codes : List String) {head : List (List Char)} {s : State} {n : Nat}

/-- Through a header a walk stays outside of bodies, and all that it may report is a title. -/
theorem walk_header (hc : "TOKEN/LEADING_DIGIT" ∉ codes) (hh : bodyStart ∉ head)
    (hs : s.blocks = none) :
    (∃ title, (walk step s n head).2 = { s with title := title }) ∧
      Free codes (walk step s n head).1 := by
  induction head generalizing s n with
  | nil => exact ⟨⟨s.title, rfl⟩, free_nil⟩
  | cons text head ih =>
    rw [List.mem_cons, not_or] at hh
    have hstep : (∃ title, (step s n text).2 = { s with title := title }) ∧
        Free codes (step s n text).1 := by
      simp only [step, hs, headerStep]
      cases title? text with
      | none =>
        have ht : text ≠ "---".toList := Ne.symm hh.1
        simp only [if_neg ht]
        exact ⟨⟨s.title, by rw [← hs]⟩, free_nil⟩
      | some title => exact ⟨⟨some title, by rw [← hs]⟩, free_digitIssues hc .title n title⟩
    obtain ⟨⟨title, ht⟩, hfree⟩ := hstep
    obtain ⟨⟨last, hl⟩, hrest⟩ := ih (s := (step s n text).2) (n := n + 1) hh.2 (by rw [ht, hs])
    exact ⟨⟨last, by rw [walk, hl, ht]⟩, free_append.mpr ⟨hfree, hrest⟩⟩

theorem step_bodyStart (hc : "HEADER/MISSING_TITLE" ∉ codes) (hs : s.blocks = none) (n : Nat) :
    (step s n bodyStart).2 = { s with blocks := some [] } ∧
      Free codes (step s n bodyStart).1 := by
  have ht : title? bodyStart = none := by decide
  have hb : bodyStart = "---".toList := rfl
  simp only [step, hs, headerStep, ht, if_pos hb, true_and]
  exact free_ite _ hc

/-- A walk enters a body with no open blocks. -/
theorem walk_bodyStart (hd : "TOKEN/LEADING_DIGIT" ∉ codes) (hm : "HEADER/MISSING_TITLE" ∉ codes)
    (hh : bodyStart ∉ head) (hs : s.blocks = none) (n : Nat) :
    ∃ title issues, Free codes issues ∧ ∀ rest, walk step s n (head ++ bodyStart :: rest) =
      let walked := walk step { s with title := title, blocks := some [] } (n + head.length + 1) rest
      (issues ++ walked.1, walked.2) := by
  obtain ⟨⟨title, ht⟩, hhead⟩ := walk_header codes (n := n) hd hh hs
  have hblocks : (walk step s n head).2.blocks = none := by rw [ht, hs]
  obtain ⟨hstep, hstart⟩ := step_bodyStart codes hm hblocks (n + head.length)
  rw [ht] at hstep hstart
  refine ⟨title, _, free_append.mpr ⟨hhead, hstart⟩, fun rest => ?_⟩
  simp only [walk_append, walk, ht, hstep, List.append_assoc]

/-- At the end of a body a walk reports the blocks that are open, and goes on outside of bodies. -/
theorem walk_bodyEnd {body : List (List Char)} {blocks : List Block}
    (hw : (walk step s n body).2.blocks = some blocks) (behind : List (List Char)) :
    ∃ s' n', s'.blocks = none ∧ s'.declared = (walk step s n body).2.declared ∧
      walk step s n (body ++ bodyEnd :: behind) =
        let walked := walk step s' n' behind
        ((walk step s n body).1 ++ (openIssues blocks ++ walked.1), walked.2) := by
  have hb : bodyEnd = "===".toList := rfl
  refine ⟨{ (walk step s n body).2 with
    blocks := none, title := none, start := some (n + body.length + 1) },
    n + body.length + 1, rfl, rfl, ?_⟩
  simp only [walk_append, walk, step, hw, bodyStep, if_pos hb]

end Walk

end StoryFlow.Lint.Yarn
