import StoryFlow.Proofs.Ink.Escape
import StoryFlow.Proofs.Lint.Insert

/-! # Text in an Ink script

A check of an Ink script does not depend on the numbers of its lines. So a text that is put into a
script changes nothing when its line is read as a text, and that is so unless the text looks like
the declaration of a variable.
-/

namespace StoryFlow.Lint.Ink

open Text

section Renumber

variable (f : Nat → Nat)

def Branch.renumber (b : Branch) : Branch :=
  { b with line := f b.line }

def Block.renumber (b : Block) : Block where
  line := f b.line
  branches := b.branches.map (Branch.renumber f)

def State.renumber (s : State) : State where
  vars := renumberSeen f s.vars
  knots := renumberSeen f s.knots
  blocks := s.blocks.map (Block.renumber f)

theorem divertIssues_renumber (line : Nat) (text : List Char) :
    divertIssues (f line) text = (divertIssues line text).map (Issue.renumber f) := by
  simp only [divertIssues, List.map_flatMap]
  congr 1
  funext target
  split <;> rfl

theorem bracketIssues_renumber (line : Nat) (text : List Char) :
    bracketIssues (f line) text = (bracketIssues line text).map (Issue.renumber f) := by
  unfold bracketIssues
  split
  · simp only
    split <;> rfl
  · simp only
    split <;> rfl

theorem contentIssues_renumber (line : Nat) (text : List Char) :
    contentIssues (f line) text = (contentIssues line text).map (Issue.renumber f) := by
  simp only [contentIssues, List.map_append, List.map_map, bracketIssues_renumber]
  congr 2
  split <;> rfl

theorem branchIssues_renumber (b : Branch) (last : Bool) :
    branchIssues (b.renumber f) last = (branchIssues b last).map (Issue.renumber f) := by
  simp only [branchIssues, List.map_append, apply_ite (List.map (Issue.renumber f))]
  rfl

theorem branchesIssues_renumber (bs : List Branch) :
    branchesIssues (bs.map (Branch.renumber f)) =
      (branchesIssues bs).map (Issue.renumber f) := by
  induction bs with
  | nil => rfl
  | cons b bs ih =>
    simp only [List.map_cons, branchesIssues, branchIssues_renumber, ih, List.map_append,
      List.isEmpty_map]

theorem blockIssues_renumber (b : Block) :
    blockIssues (b.renumber f) = (blockIssues b).map (Issue.renumber f) := by
  have helses : (b.renumber f).branches.filter (·.text = "else".toList) =
      (b.branches.filter (·.text = "else".toList)).map (Branch.renumber f) :=
    List.filter_map
  have hbranches : branchesIssues (b.renumber f).branches =
      (branchesIssues b.branches).map (Issue.renumber f) := branchesIssues_renumber f b.branches
  simp only [blockIssues, helses, hbranches, List.map_append]
  generalize List.filter _ b.branches = elses
  rcases elses with _ | ⟨first, _ | ⟨second, rest⟩⟩
  · rfl
  · rfl
  · simp [Branch.renumber, Block.renumber, Problem.renumber]

theorem knotStep_renumber (s : State) (line : Nat) (name : List Char) :
    knotStep (s.renumber f) (f line) name =
      ((knotStep s line name).1.map (Issue.renumber f), (knotStep s line name).2.renumber f) := by
  unfold knotStep
  split
  · rfl
  · have hdefine := define_renumber f .knotTwice (fun _ _ => rfl) (String.ofList name)
      line s.knots
    simp [State.renumber, hdefine, digitIssues_renumber]

theorem varStep_renumber (s : State) (line : Nat) (name value : List Char) :
    varStep (s.renumber f) (f line) name value =
      ((varStep s line name value).1.map (Issue.renumber f),
        (varStep s line name value).2.renumber f) := by
  have hdefine := define_renumber f .varTwice (fun _ _ => rfl) (String.ofList name)
    line s.vars
  unfold varStep
  simp only [State.renumber, hdefine, digitIssues_renumber, List.map_append]
  congr 3
  split <;> rfl

theorem step_renumber (s : State) (line : Nat) (text : List Char) :
    step (s.renumber f) (f line) text =
      ((step s line text).1.map (Issue.renumber f), (step s line text).2.renumber f) := by
  unfold step
  cases Kind.ofLine text with
  | blank => rfl
  | knot name => exact knotStep_renumber f s line name
  | stitch name =>
    simp only [digitIssues_renumber]
    split <;> rfl
  | var name value => exact varStep_renumber f s line name value
  | opening => simp only [divertIssues_renumber]; rfl
  | closing =>
    rcases s with ⟨vars, knots, _ | ⟨b, blocks⟩⟩
    · rfl
    · simp [State.renumber, blockIssues_renumber]
  | branch branch =>
    rcases s with ⟨vars, knots, _ | ⟨b, blocks⟩⟩
    · simp [State.renumber, divertIssues_renumber, contentIssues_renumber]
    · simp [State.renumber, Block.renumber, Branch.renumber, divertIssues_renumber]
  | content => simp only [divertIssues_renumber, contentIssues_renumber, List.map_append]

theorem step_renumbers : Renumbers step State.renumber fun _ => True :=
  fun f s line text _ => step_renumber f s line text

theorem openIssues_renumber (blocks : List Block) :
    ((blocks.map (Block.renumber f)).reverse.map fun b =>
        (Problem.unclosedBlock b.line).at b.line) =
      (blocks.reverse.map fun b => (Problem.unclosedBlock b.line).at b.line).map
        (Issue.renumber f) := by
  simp only [← List.map_reverse, List.map_map]
  rfl

end Renumber

section Speech

open StoryFlow.Ink

variable {n : Nat} {text source longer : String} {cs : List Char}

theorem divertIssues_escapeChars (line : Nat) : divertIssues line (escapeChars cs) = [] := by
  simp [divertIssues, divert_escapeChars]

theorem contentIssues_escapeChars (line : Nat) : contentIssues line (escapeChars cs) = [] := by
  have hcount : ∀ ch : Char, isSyntaxChar ch → countUnescaped ch (escapeChars cs) = 0 :=
    fun _ hch => countUnescaped_escapeChars hch cs
  have hbrackets : bracketIssues line (escapeChars cs) = [] := by
    simp [bracketIssues, hcount '[' (by decide), hcount ']' (by decide)]
  simp [contentIssues, hcount '\x7b' (by decide), hcount '\x7d' (by decide),
    inline_escapeChars, hbrackets]

/-- An escaped text starts like none of the lines that mean something else, but it can declare a
variable. -/
theorem ofLine_escapeChars (hne : cs ≠ []) :
    Kind.ofLine (escapeChars cs) = .content ↔ var? cs = none := by
  have hhead : ∀ c ∈ (escapeChars cs).head?, c ≠ '=' ∧ c ≠ '\x7b' ∧ c ≠ '\x7d' ∧ c ≠ '-' := by
    intro c hc
    rcases head?_escapeChars hc with rfl | ⟨hplain, hstarts⟩
    · decide
    · refine ⟨?_, ?_, ?_, ?_⟩ <;> rintro rfl <;> simp_all [isSyntaxChar, startsSyntax]
  obtain ⟨c, line, hline⟩ := List.exists_cons_of_ne_nil (escapeChars_ne_nil hne)
  have hslash : ¬ ("//".toList.isPrefixOf (escapeChars cs)) :=
    fun hp => not_prefix_escapeChars (List.isPrefixOf_iff_prefix.mp hp)
  rw [← var?_escapeChars cs]
  rw [hline] at hhead hslash ⊢
  obtain ⟨hequals, hopen, hclose, hdash⟩ := hhead c rfl
  have hknot : knot? (c :: line) = none := by
    unfold knot?
    split
    · exact absurd (List.cons.inj ‹_›).1 hequals
    · rfl
  have hstitch : stitch? (c :: line) = none := by
    unfold stitch?
    split
    · exact absurd (List.cons.inj ‹_›).1 hequals
    · rfl
  have hbranch : branch? (c :: line) = none := by
    unfold branch?
    split
    · exact absurd (List.cons.inj ‹_›).1 hdash
    · rfl
  unfold Kind.ofLine
  rw [List.isEmpty_cons, Bool.false_or, if_neg hslash, hknot, hstitch]
  cases var? (c :: line) with
  | none => simp [opensBlock, hopen, hclose, hbranch]
  | some v => simp

theorem toList_escape (text : String) : (escape text).toList = escapeChars text.toList :=
  String.toList_ofList

/-- A text in a script adds no issue and is read as a text exactly when it is not written like the
declaration of a variable. -/
theorem check_insert_text (h : Inserts n ((Content.speech none text).write) source longer)
    (hne : text ≠ "") (ht : trim text.toList = text.toList) :
    (check longer = (check source).map (Issue.renumber (moved n)) ∧
        Kind.ofLine (trim (Content.speech none text).write.toList) = .content) ↔
      var? text.toList = none := by
  have hline : trim (Content.speech none text).write.toList = escapeChars text.toList := by
    rw [Content.write, toList_escape, trim_escapeChars ht]
  have hkind : Kind.ofLine (escapeChars text.toList) = .content ↔ var? text.toList = none :=
    ofLine_escapeChars (by simpa using hne)
  rw [hline, hkind, and_iff_right_iff_imp]
  intro hv
  have hstep : ∀ s : State, step s (n + 1) (trim (Content.speech none text).write.toList) = ([], s) := by
    intro s
    rw [hline, step, hkind.mpr hv]
    simp [divertIssues_escapeChars, contentIssues_escapeChars]
  obtain ⟨before, after, hsource, hlonger⟩ := walk_of_inserts h step_renumbers
    (s := State.initial) rfl trivial (hstep _)
  have hopen := openIssues_renumber (moved n) (walk step State.initial 1 (lines source)).2.blocks
  simp only [check, hlonger, hsource, List.nil_append, List.map_append]
  rw [← hopen]
  rfl

/-- The lines of a script up to a place in a knot. -/
def hallHead : String := "VAR gold = 1\n=== hall ==="

def hall : String := hallHead ++ "\n" ++ "-> END"

/-- The script with a text at that place. -/
def hallWith (text : String) : String :=
  hallHead ++ "\n" ++ ((Content.speech none text).write ++ "\n" ++ "-> END")

theorem inserts_hall (hu : Unbroken (Content.speech none text).write) :
    Inserts 2 (Content.speech none text).write hall (hallWith text) :=
  inserts_between (show hallHead.toList.getLast? ≠ some '\r' by decide) hu

theorem hall_text_inert : let text := "=== \x7b9 == null\x7d -> 2nd [door] // VAR gold = 2"
    Inserts 2 (Content.speech none text).write hall (hallWith text) ∧
      check (hallWith text) = (check hall).map (Issue.renumber (moved 2)) ∧
      Kind.ofLine (trim (Content.speech none text).write.toList) = .content := by
  intro text
  have h : Inserts 2 (Content.speech none text).write hall (hallWith text) :=
    inserts_hall (by decide +kernel)
  exact ⟨h, (check_insert_text h (by decide) (by decide +kernel)).mpr (by decide +kernel)⟩

/-- A trimmed text that is read as one more declaration. -/
theorem hall_text_heard : let text := "VAR gold = 2"
    Inserts 2 (Content.speech none text).write hall (hallWith text) ∧ trim text.toList = text.toList ∧
      Kind.ofLine (trim (Content.speech none text).write.toList) =
        .var "gold".toList "2".toList ∧
      check hall = [] ∧ check (hallWith text) = [(Problem.varTwice "gold" 1).at 3] :=
  ⟨inserts_hall (by decide +kernel), by decide +kernel, by decide +kernel, by decide +kernel,
    by decide +kernel⟩

end Speech

end StoryFlow.Lint.Ink
