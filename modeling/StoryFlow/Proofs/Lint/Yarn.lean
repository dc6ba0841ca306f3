import StoryFlow.Proofs.Lint.Insert
import StoryFlow.Proofs.Yarn.Escape

/-! # Text in the body of a Yarn node

A check of a Yarn script does not depend on the numbers of its lines. So a text that is put into
the body of a node changes nothing when nothing is found in its line, and that is so unless the
text looks like a declaration, or like a jump to a name that starts with a digit.
-/

namespace StoryFlow.Lint.Yarn

open Text

section Renumber

variable (f : Nat → Nat)

def Block.renumber (b : Block) : Block :=
  { b with line := f b.line }

def State.renumber (s : State) : State where
  declared := renumberSeen f s.declared
  start := s.start.map f
  title := s.title
  blocks := s.blocks.map (List.map (Block.renumber f))

theorem lineIssues_renumber (line : Nat) (text : List Char) :
    lineIssues (f line) text = (lineIssues line text).map (Issue.renumber f) := by
  simp only [lineIssues, List.map_append, List.map_flatMap, List.map_map,
    ← digitIssues_renumber]
  rfl

theorem openIssues_renumber (blocks : List Block) :
    openIssues (blocks.map (Block.renumber f)) = (openIssues blocks).map (Issue.renumber f) := by
  simp only [openIssues, ← List.map_reverse, List.map_map]
  rfl

theorem markStep_renumber (line : Nat) (text : List Char) (m : Option Mark)
    (blocks : List Block) :
    markStep (f line) text m (blocks.map (Block.renumber f)) =
      ((markStep line text m blocks).1.map (Issue.renumber f),
        (markStep line text m blocks).2.map (Block.renumber f)) := by
  cases m with
  | none => rfl
  | some m =>
    cases blocks with
    | nil => cases m <;> rfl
    | cons b blocks =>
      cases m with
      | opening | closing => rfl
      | elseIf | otherwise =>
        simp only [List.map_cons, markStep, Block.renumber]
        split <;> rfl

theorem headerStep_renumber (s : State) (line : Nat) (text : List Char) :
    headerStep (s.renumber f) (f line) text =
      ((headerStep s line text).1.map (Issue.renumber f), (headerStep s line text).2.renumber f) := by
  unfold headerStep
  cases title? text with
  | some title => simp [digitIssues_renumber, State.renumber]
  | none =>
    simp only
    split
    · have hstart : (s.renumber f).start.getD (f line) = f (s.start.getD line) :=
        Option.getD_map f line s.start
      rw [hstart, show (s.renumber f).title = s.title from rfl]
      by_cases ht : (s.title.getD []).isEmpty <;> simp only [ht] <;> rfl
    · rfl

/-- Only the end of a body looks at the number of the next line. -/
theorem bodyStep_renumber {s : State} {blocks : List Block} {line : Nat} {text : List Char}
    (h : f (line + 1) = f line + 1 ∨ text ≠ "===".toList) :
    bodyStep (s.renumber f) (blocks.map (Block.renumber f)) (f line) text =
      ((bodyStep s blocks line text).1.map (Issue.renumber f),
        (bodyStep s blocks line text).2.renumber f) := by
  unfold bodyStep
  split
  · rename_i ht
    rw [openIssues_renumber, ← h.resolve_right (not_not_intro ht)]
    rfl
  · simp only [lineIssues_renumber, markStep_renumber, List.map_append]
    cases declared? text with
    | none => rfl
    | some name =>
      have hdefine := define_renumber f .declaredTwice (fun _ _ => rfl) name line s.declared
      simp only [State.renumber, hdefine, Option.map_some]

theorem step_renumbers : Renumbers step State.renumber fun s => s.blocks.isSome := by
  intro f s line text h
  unfold step at h ⊢
  cases hb : s.blocks with
  | none =>
    have hn : (s.renumber f).blocks = none := by simp [State.renumber, hb]
    simp only [hn]
    exact headerStep_renumber f s line text
  | some blocks =>
    have hn : (s.renumber f).blocks = some (blocks.map (Block.renumber f)) := by
      simp [State.renumber, hb]
    simp only [hn]
    refine bodyStep_renumber f (h.imp_right fun hs ht => ?_)
    simp [hb, bodyStep, ht] at hs

end Renumber

section Speech

open StoryFlow.Yarn

variable {n tag : Nat} {text source longer : String}

/-- A line behind the first `n` lines of a script stands in the body of a node. -/
def InBody (n : Nat) (source : String) : Prop :=
  (walk step State.initial 1 ((lines source).take n)).2.blocks.isSome

instance (n : Nat) (source : String) : Decidable (InBody n source) :=
  inferInstanceAs (Decidable (_ = true))

theorem InBody.pos (h : InBody n source) : 0 < n := by
  refine Nat.pos_of_ne_zero ?_
  rintro rfl
  exact absurd h (by simp [InBody, walk, State.initial])

theorem endIssues_renumber (f : Nat → Nat) (h : f 1 = 1) (s : State) :
    endIssues (s.renumber f) = (endIssues s).map (Issue.renumber f) := by
  have hstart : (s.renumber f).start.getD 1 = f (s.start.getD 1) := by
    cases hs : s.start <;> simp [State.renumber, hs, h]
  cases hb : s.blocks with
  | none => simp [endIssues, State.renumber, hb]
  | some blocks =>
    have hn : (s.renumber f).blocks = some (blocks.map (Block.renumber f)) := by
      simp [State.renumber, hb]
    simp only [endIssues, hn, hb, hstart, openIssues_renumber]
    rfl

/-- A spoken text opens no command and no expression, so only jumps can be found in its line. -/
theorem lineIssues_speechLine (line : Nat) : lineIssues line (speechLine text tag) =
    (jump.all (speechLine text tag)).flatMap (digitIssues .jump line) := by
  have hcommand : command.all (speechLine text tag) = [] := (shielded_speechLine text tag).matches_command
  have hinline : Lint.inline.all (speechLine text tag) = [] :=
    (shielded_speechLine text tag).matches_inline
  simp [lineIssues, hcommand, hinline]

/-- No command starts the line of a text. -/
theorem not_prefix_speechLine {word : List Char} (hw : ['<', '<'] <+: word) :
    ¬ word <+: speechLine text tag := by
  intro hp
  obtain ⟨rest, hr⟩ := hw.trans hp
  have hs := shielded_speechLine text tag
  rw [← hr] at hs
  exact absurd ((shielded_cons_iff.mp hs).1 (Or.inr ⟨rfl, rfl⟩)) (by simp)

theorem ofLine?_speechLine : Mark.ofLine? (speechLine text tag) = none := by
  have hword : ∀ {word : List Char}, ['<', '<'] <+: word →
      ¬ word.isPrefixOf (speechLine text tag) :=
    fun hw hp => not_prefix_speechLine hw (List.isPrefixOf_iff_prefix.mp hp)
  have hline : ∀ {word : List Char}, ['<', '<'] <+: word → speechLine text tag ≠ word :=
    fun hw he => not_prefix_speechLine (he ▸ hw) List.prefix_rfl
  unfold Mark.ofLine?
  rw [if_neg (hword (by decide)), if_neg (hword (by decide)), if_neg (hline (by decide)),
    if_neg (hline (by decide))]

theorem step_speechLine {s : State} (hs : s.blocks.isSome) (line : Nat)
    (hd : declared? (speechLine text tag) = none) :
    step s line (speechLine text tag) = (lineIssues line (speechLine text tag), s) := by
  obtain ⟨blocks, hb⟩ := Option.isSome_iff_exists.mp hs
  have hend : speechLine text tag ≠ "===".toList := by
    intro he
    have hmem := mem_speechLine text tag
    rw [he] at hmem
    exact absurd hmem (by decide)
  simp only [step, hb, bodyStep, if_neg hend, hd, ofLine?_speechLine, markStep, List.nil_append,
    List.append_nil]
  rw [← hb]

theorem lineIssues_speechLine_eq_nil_iff (tag line : Nat) :
    lineIssues line (speechLine text tag) = [] ↔
      ∀ target ∈ jump.all text.toList, startsWithDigit target = false := by
  have hdigits : ∀ targets : List (List Char),
      (∀ target ∈ targets, startsWithDigit target = false) ↔
        true ∉ targets.map startsWithDigit := by simp
  rw [lineIssues_speechLine, List.flatMap_eq_nil_iff, hdigits, ← jump_speechLine text tag,
    ← hdigits]
  refine forall₂_congr fun target _ => ?_
  unfold digitIssues
  split <;> simp_all

theorem declared?_speechLine_eq_none_iff (tag : Nat) :
    declared? (speechLine text tag) = none ↔ declaration.all text.toList = [] := by
  rw [declared?, declaration_speechLine, Option.map_eq_none_iff, List.head?_eq_none_iff]

/-- A spoken text in a body adds no issue and declares nothing exactly when it holds no command
that declares a variable, and none that jumps to a name with a digit at its start. -/
theorem check_insert_speech (h : Inserts n ((Content.speech none text).write tag) source longer)
    (hb : InBody n source) :
    (check longer = (check source).map (Issue.renumber (moved n)) ∧
        declared? (trim ((Content.speech none text).write tag).toList) = none) ↔
      declaration.all text.toList = [] ∧
        ∀ target ∈ jump.all text.toList, startsWithDigit target = false := by
  rw [← declared?_speechLine_eq_none_iff tag, and_comm]
  refine and_congr_right fun hd => ?_
  rw [← lineIssues_speechLine_eq_nil_iff tag (n + 1)]
  obtain ⟨before, after, hsource, hlonger⟩ := walk_of_inserts h step_renumbers (s := State.initial)
    rfl hb (step_speechLine hb (n + 1) hd)
  have hend := endIssues_renumber (moved n) (moved_of_le hb.pos)
    (walk step State.initial 1 (lines source)).2
  simp only [check, hlonger, hsource, hend, List.map_append]
  constructor
  · intro he
    have hlength := congrArg List.length he
    simp only [List.length_append, List.length_map] at hlength
    exact List.eq_nil_of_length_eq_zero (by omega)
  · intro hn
    rw [hn, List.nil_append]

/-- The lines of a node up to a place in its body. -/
def pageHead : String := "title: page\n---\n<<declare $gold = 1>>"

def page : String := pageHead ++ "\n" ++ "==="

/-- The page with a spoken text at that place. -/
def pageWith (text : String) : String :=
  pageHead ++ "\n" ++ ((Content.speech none text).write 1 ++ "\n" ++ "===")

theorem inserts_page (hu : Unbroken ((Content.speech none text).write 1)) :
    Inserts 3 ((Content.speech none text).write 1) page (pageWith text) :=
  inserts_between (show pageHead.toList.getLast? ≠ some '\r' by decide) hu

theorem page_speech_inert : let text := "Say <<set $9 to null>>, \x7b1 or <<jump home>>"
    Inserts 3 ((Content.speech none text).write 1) page (pageWith text) ∧ InBody 3 page ∧
      check (pageWith text) = (check page).map (Issue.renumber (moved 3)) := by
  intro text
  have h : Inserts 3 ((Content.speech none text).write 1) page (pageWith text) :=
    inserts_page (by decide +kernel)
  have hb : InBody 3 page := by decide +kernel
  exact ⟨h, hb, ((check_insert_speech h hb).mpr (by decide +kernel)).1⟩

/-- A spoken text that is taken for a second declaration, and one that is taken for a jump. -/
theorem page_speech_heard : InBody 3 page ∧ check page = [] ∧
    (Inserts 3 ((Content.speech none "<<declare $gold = 2>>").write 1) page
        (pageWith "<<declare $gold = 2>>") ∧
      check (pageWith "<<declare $gold = 2>>") = [(Problem.declaredTwice "gold" 3).at 4]) ∧
    Inserts 3 ((Content.speech none "<<jump 2nd>>").write 1) page (pageWith "<<jump 2nd>>") ∧
      check (pageWith "<<jump 2nd>>") = [(Problem.leadingDigit .jump "2nd").at 4] :=
  ⟨by decide +kernel, by decide +kernel, ⟨inserts_page (by decide +kernel), by decide +kernel⟩,
    inserts_page (by decide +kernel), by decide +kernel⟩

end Speech

end StoryFlow.Lint.Yarn
