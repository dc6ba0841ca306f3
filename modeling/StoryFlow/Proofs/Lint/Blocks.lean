import StoryFlow.Proofs.Lint.Bodies

/-! # The blocks of a Yarn body

The check keeps a stack of open blocks, each with a flag once its last branch has begun. While it
reports nothing, the stack tells how the marks so far may still become whole blocks: behind each
opening mark on the stack stand the branches of a block whose end is to come. So no block is
reported exactly when all bodies are closed and their marks make up whole blocks.
-/

namespace StoryFlow.Lint.Yarn

/-- Marks make up whole blocks, one behind the other: each block opens, has more branches that
depend on a condition, has one last branch or none, and closes. -/
inductive Blocks : List Mark → Prop where

  | nil : Blocks []

  | block {before first : List Mark} {more : List (List Mark)} {last : Option (List Mark)} :
      Blocks before → Blocks first → (∀ b ∈ more, Blocks b) → (∀ b ∈ last, Blocks b) →
      Blocks (before ++ .opening :: (first ++ (more.flatMap (.elseIf :: ·) ++
        (last.elim [] (.otherwise :: ·) ++ [.closing]))))

/-- The branches of a block that is not closed yet, and whether the last one has begun. -/
inductive Branches : Bool → List Mark → Prop where

  | more {first : List Mark} {more : List (List Mark)} : Blocks first → (∀ b ∈ more, Blocks b) →
      Branches false (first ++ more.flatMap (.elseIf :: ·))

  | last {ms b : List Mark} : Branches false ms → Blocks b → Branches true (ms ++ .otherwise :: b)

/-- Marks that leave blocks open, innermost first. -/
inductive Opened : List Bool → List Mark → Prop where

  | nil {ms : List Mark} : Blocks ms → Opened [] ms

  | cons {fs : List Bool} {f : Bool} {ms ns : List Mark} : Opened fs ms → Branches f ns →
      Opened (f :: fs) (ms ++ .opening :: ns)

/-- What a mark makes of the open blocks, when it may stand there. -/
def Mark.next? : Mark → List Bool → Option (List Bool)
  | opening, fs => some (false :: fs)
  | elseIf, false :: fs => some (false :: fs)
  | otherwise, false :: fs => some (true :: fs)
  | closing, _ :: fs => some fs
  | _, _ => none

def follow? (fs : List Bool) (ms : List Mark) : Option (List Bool) :=
  ms.foldlM (fun fs m => m.next? fs) fs

section Grammar

variable {fs gs : List Bool} {f : Bool} {m : Mark} {ms ns : List Mark} {more : List (List Mark)}

theorem follow?_cons : follow? fs (m :: ms) = (m.next? fs).bind (follow? · ms) :=
  List.foldlM_cons

theorem follow?_append : follow? fs (ms ++ ns) = (follow? fs ms).bind (follow? · ns) :=
  List.foldlM_append

theorem follow?_more (h : ∀ b ∈ more, ∀ fs, follow? fs b = some fs) (fs : List Bool) :
    follow? (false :: fs) (more.flatMap (.elseIf :: ·)) = some (false :: fs) := by
  induction more with
  | nil => rfl
  | cons b more ih =>
    rw [List.forall_mem_cons] at h
    rw [List.flatMap_cons, List.cons_append, follow?_cons]
    simp only [Mark.next?, Option.bind_some, follow?_append, h.1, ih h.2]

/-- Whole blocks leave the stack as it was. -/
theorem Blocks.follow? (h : Blocks ms) : ∀ fs, follow? fs ms = some fs := by
  induction h with
  | nil => exact fun fs => rfl
  | @block before first more last _ _ _ _ ihbefore ihfirst ihmore ihlast =>
    intro fs
    rw [follow?_append, ihbefore, Option.bind_some, follow?_cons]
    simp only [Mark.next?, Option.bind_some, follow?_append, ihfirst, follow?_more ihmore]
    cases last with
    | none => rfl
    | some b =>
      rw [Option.elim_some, follow?_cons]
      simp only [Mark.next?, Option.bind_some, ihlast b rfl]
      rfl

theorem Blocks.append (hm : Blocks ms) (hn : Blocks ns) : Blocks (ms ++ ns) := by
  induction hn with
  | nil => simpa using hm
  | block _ hfirst hmore hlast ih _ _ _ =>
    rw [← List.append_assoc]
    exact .block ih hfirst hmore hlast

theorem Branches.append (hm : Branches f ms) (hn : Blocks ns) : Branches f (ms ++ ns) := by
  cases hm with
  | last hm hb =>
    rw [List.append_assoc]
    exact .last hm (hb.append hn)
  | @more first more hfirst hmore =>
    rcases List.eq_nil_or_concat more with rfl | ⟨more, b, rfl⟩
    · simpa using Branches.more (hfirst.append hn) hmore
    · have hb : ∀ c ∈ more ++ [b ++ ns], Blocks c := by
        simp only [List.concat_eq_append, List.forall_mem_append, List.forall_mem_singleton]
          at hmore ⊢
        exact ⟨hmore.1, hmore.2.append hn⟩
      simpa using Branches.more hfirst hb

theorem Opened.append (hm : Opened fs ms) (hn : Blocks ns) : Opened fs (ms ++ ns) := by
  cases hm with
  | nil hm => exact .nil (hm.append hn)
  | cons hm hb =>
    rw [List.append_assoc]
    exact .cons hm (hb.append hn)

theorem Branches.elseIf (h : Branches false ms) : Branches false (ms ++ [.elseIf]) := by
  cases h with
  | @more first more hfirst hmore =>
    have hb : ∀ b ∈ more ++ [[]], Blocks b := by
      simp only [List.forall_mem_append, List.forall_mem_singleton]
      exact ⟨hmore, .nil⟩
    simpa using Branches.more hfirst hb

theorem Branches.closing (h : Branches f ms) : Blocks (.opening :: (ms ++ [.closing])) := by
  cases h with
  | more hfirst hmore =>
    have hlast : ∀ b ∈ (none : Option (List Mark)), Blocks b := by simp
    simpa using Blocks.block .nil hfirst hmore hlast
  | @last ms b h hb =>
    have hlast : ∀ c ∈ some b, Blocks c := by
      rintro c ⟨⟩
      exact hb
    cases h with
    | more hfirst hmore => simpa using Blocks.block .nil hfirst hmore hlast

theorem Opened.next (h : Opened fs ms) (hn : m.next? fs = some gs) : Opened gs (ms ++ [m]) := by
  cases m with
  | opening =>
    obtain rfl := Option.some.inj hn
    exact .cons h (@Branches.more [] [] .nil (by simp))
  | elseIf =>
    cases h with
    | nil => exact nomatch hn
    | @cons fs f ms ns h hb =>
      cases f with
      | true => exact nomatch hn
      | false =>
        obtain rfl := Option.some.inj hn
        rw [List.append_assoc]
        exact .cons h hb.elseIf
  | otherwise =>
    cases h with
    | nil => exact nomatch hn
    | @cons fs f ms ns h hb =>
      cases f with
      | true => exact nomatch hn
      | false =>
        obtain rfl := Option.some.inj hn
        rw [List.append_assoc]
        exact .cons h (.last hb .nil)
  | closing =>
    cases h with
    | nil => exact nomatch hn
    | cons h hb =>
      obtain rfl := Option.some.inj hn
      rw [List.append_assoc]
      exact h.append hb.closing

theorem Opened.follow (h : Opened fs ms) (hf : follow? fs ns = some gs) : Opened gs (ms ++ ns) := by
  induction ns generalizing fs ms with
  | nil =>
    obtain rfl := Option.some.inj hf
    rwa [List.append_nil]
  | cons n ns ih =>
    rw [follow?_cons] at hf
    obtain ⟨hs, hn, hf⟩ := Option.bind_eq_some_iff.mp hf
    rw [List.append_cons]
    exact ih (h.next hn) hf

/-- The marks that close what they open are whole blocks. -/
theorem follow?_eq_nil_iff : follow? [] ms = some [] ↔ Blocks ms := by
  constructor
  · intro h
    cases Opened.follow (.nil .nil) h with
    | nil h => exact h
  · exact fun h => h.follow? []

/-- The stack decides whether marks are whole blocks. -/
instance : DecidablePred Blocks := fun _ => decidable_of_iff _ follow?_eq_nil_iff

example : Blocks [.opening, .opening, .closing, .elseIf, .otherwise, .closing] := by decide

example : ¬ Blocks [.opening, .otherwise, .elseIf, .closing] := by decide

end Grammar

section Walk

def blockCodes : List String := ["BLOCK/UNBALANCED", "BLOCK/MULTIPLE_ELSE"]

/-- No issue is about the blocks. -/
abbrev BlocksPass (issues : List Issue) : Prop :=
  Free blockCodes issues

def flags (blocks : List Block) : List Bool :=
  blocks.map Block.elseSeen

variable {issues more : List Issue} {blocks : List Block} {s : State} {body : List (List Char)}

theorem blocksPass_declaring (line : Nat) (text : List Char) (seen : List (String × Nat)) :
    BlocksPass (match declared? text with
      | some name => define .declaredTwice name line seen
      | none => ([], seen)).1 := by
  cases declared? text with
  | none => exact free_nil
  | some name =>
    simp only [define]
    split
    · exact free_cons.mpr ⟨by simp [Problem.code, blockCodes], free_nil⟩
    · exact free_nil

theorem blocksPass_openIssues : BlocksPass (openIssues blocks) ↔ blocks = [] := by
  constructor
  · intro h
    rw [List.eq_nil_iff_forall_not_mem]
    intro b hb
    exact free_map.mp h b (List.mem_reverse.mpr hb) List.mem_cons_self
  · rintro rfl
    exact free_nil

/-- A mark that may not stand where it does is reported, and any other does to the blocks what it
does to the stack. -/
theorem follow?_markStep (line : Nat) (text : List Char) (m : Option Mark) (blocks : List Block) :
    follow? (flags blocks) m.toList = if BlocksPass (markStep line text m blocks).1 then
      some (flags (markStep line text m blocks).2) else none := by
  have hreported : ∀ {p : Problem}, p.code ∈ blockCodes → ¬ BlocksPass [p.at line] :=
    fun hp h => (free_cons.mp h).1 hp
  cases m with
  | none => exact (if_pos free_nil).symm
  | some m =>
    cases m with
    | opening => exact (if_pos free_nil).symm
    | closing =>
      cases blocks with
      | nil => exact (if_neg (hreported List.mem_cons_self)).symm
      | cons b blocks => exact (if_pos free_nil).symm
    | elseIf | otherwise =>
      cases blocks with
      | nil => exact (if_neg (hreported List.mem_cons_self)).symm
      | cons b blocks =>
        rcases b with ⟨opened, _ | _⟩
        · exact (if_pos free_nil).symm
        · exact (if_neg (hreported (by simp [Problem.code, blockCodes]))).symm

/-- Through a body a walk keeps the blocks that are open. -/
theorem walk_body (hb : bodyEnd ∉ body) (hs : s.blocks = some blocks) (n : Nat) :
    ∃ last, (walk step s n body).2.blocks = some last ∧
      follow? (flags blocks) (body.filterMap Mark.ofLine?) =
        if BlocksPass (walk step s n body).1 then some (flags last) else none := by
  induction body generalizing s blocks n with
  | nil => exact ⟨blocks, hs, (if_pos free_nil).symm⟩
  | cons text body ih =>
    rw [List.mem_cons, not_or] at hb
    have hend : text ≠ "===".toList := Ne.symm hb.1
    have hmark := follow?_markStep n text (Mark.ofLine? text) blocks
    have hstep : (step s n text).2.blocks = some (markStep n text (Mark.ofLine? text) blocks).2 ∧
        (BlocksPass (step s n text).1 ↔
          BlocksPass (markStep n text (Mark.ofLine? text) blocks).1) := by
      simp only [step, hs, bodyStep, if_neg hend, free_append, true_and]
      exact and_iff_right ⟨blocksPass_declaring n text s.declared,
        free_lineIssues (by decide) (by decide) n text⟩
    obtain ⟨last, hl, hrest⟩ := ih hb.2 hstep.1 (n + 1)
    refine ⟨last, hl, ?_⟩
    rw [List.filterMap_eq_flatMap_toList, List.flatMap_cons, ← List.filterMap_eq_flatMap_toList,
      follow?_append, hmark]
    simp only [walk, free_append, hstep.2]
    by_cases hp : BlocksPass (markStep n text (Mark.ofLine? text) blocks).1
    · simp only [hp, if_true, Option.bind_some, hrest, true_and]
    · simp only [hp, if_false, Option.bind_none, false_and]

/-- The end of a body reports the blocks that are still open. -/
theorem blocksPass_body (hb : bodyEnd ∉ body) (hs : s.blocks = some []) (n : Nat)
    {last : List Block} (hl : (walk step s n body).2.blocks = some last) :
    BlocksPass (walk step s n body).1 ∧ BlocksPass (openIssues last) ↔
      follow? [] (body.filterMap Mark.ofLine?) = some [] := by
  obtain ⟨last', hl', hfollow⟩ := walk_body hb hs n
  obtain rfl := Option.some.inj (hl.symm.trans hl')
  rw [blocksPass_openIssues, show ([] : List Bool) = flags [] from rfl, hfollow]
  split
  · rename_i h
    simp [h, flags]
  · rename_i h
    simp [h]

/-- A walk from outside of bodies reports no block when all bodies are closed and leave the stack
empty. -/
theorem blocksPass_walk (texts : List (List Char)) (hs : s.blocks = none) (n : Nat) :
    BlocksPass ((walk step s n texts).1 ++ endIssues (walk step s n texts).2) ↔
      ∀ b ∈ bodies texts, b.closed ∧ follow? [] (b.lines.filterMap Mark.ofLine?) = some [] := by
  induction texts using script_induction generalizing s n with
  | header head hh =>
    obtain ⟨⟨title, ht⟩, hp⟩ := walk_header blockCodes (n := n) (by decide) hh hs
    simp [bodies, sections_header hh, endIssues, ht, hs, hp, BlocksPass]
  | opened head body hh hb =>
    obtain ⟨title, issues, -, hw⟩ :=
      walk_bodyStart blockCodes (by decide) (by decide) hh hs n
    obtain ⟨last, hl, -⟩ := walk_body (s := { s with title := title, blocks := some [] }) hb rfl
      (n + head.length + 1)
    -- the node that the script ends in is reported, and its body is not closed
    have hreported : ¬ BlocksPass (endIssues (walk step s n (head ++ bodyStart :: body)).2) := by
      simp only [hw, endIssues, hl]
      exact fun h => (free_cons.mp h).1 List.mem_cons_self
    simp [bodies, sections_open hh hb, free_append, hreported]
  | closed head body behind hh hb ih =>
    obtain ⟨title, issues, hp, hw⟩ :=
      walk_bodyStart blockCodes (by decide) (by decide) hh hs n
    obtain ⟨last, hl, -⟩ := walk_body (s := { s with title := title, blocks := some [] }) hb rfl
      (n + head.length + 1)
    have hbody := blocksPass_body hb rfl (n + head.length + 1) hl
    obtain ⟨s', n', hs', -, hw'⟩ := walk_bodyEnd hl behind
    have hbehind := ih hs' n'
    simp only [hw, hw', free_append, bodies, sections_closed hh hb, List.filterMap_cons,
      List.forall_mem_cons, true_and, hp] at hbehind hbody ⊢
    tauto

end Walk

end StoryFlow.Lint.Yarn
