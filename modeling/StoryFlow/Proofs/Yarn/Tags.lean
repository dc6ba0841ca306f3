import Mathlib.Data.List.DropRight
import Mathlib.Data.List.Forall2
import StoryFlow.Proofs.Expr.Statements
import StoryFlow.Proofs.Script.Modes
import StoryFlow.Proofs.Yarn.LineBreaks

/-! # Tags of Yarn lines

Speech and options are numbered through all nodes and files of an export. A tag is the last word of
its line, and all other lines end with the bracket of a command, so the tags can be read off the
written lines again. They count the choices and the spoken texts of the flows.
-/

namespace StoryFlow

def Step.isChoice : Step → Bool
  | .choice .. => true
  | _ => false

/-- The step is a dialogue that says something. -/
def Step.isSpeech : Step → Bool
  | .dialogue _ d => d.spoken ≠ ""
  | _ => false

namespace Yarn

open Text

section Reading

variable {l : Line} {n : Nat}

/-- What a tag holds behind its mark. -/
def lineName (n : Nat) : String :=
  "line_" ++ fourDigits n

/-- The tag of a written line: its last word, when that is a mark with a name behind it. -/
def tag? (text : String) : Option String :=
  let word := text.toList.rtakeWhile (· ≠ ' ')
  let name := word.drop "#line:".toList.length
  if "#line:".toList.isPrefixOf word ∧ name.all isWordChar then some (.ofList name) else none

theorem lineName_injective : Function.Injective lineName := by
  intro m n h
  have hd : fourDigits m = fourDigits n := (String.append_right_inj _).mp h
  rw [← ofDigitChars_fourDigits m, hd, ofDigitChars_fourDigits]

theorem isWordChar_of_mem_lineName {c : Char} (hc : c ∈ (lineName n).toList) : isWordChar c := by
  rw [lineName, String.toList_append] at hc
  rcases List.mem_append.mp hc with hc | hc
  · exact List.all_eq_true.mp (by decide : "line_".toList.all isWordChar) c hc
  · have hd := isDigit_of_mem_fourDigits hc
    simp [isWordChar, Char.isAlphanum, hd]

theorem toList_tag (n : Nat) : (tag n).toList = "#line:".toList ++ (lineName n).toList := by
  simp [tag, lineName]

theorem rtakeWhile_append_cons {p : Char → Bool} {front word : List Char} {c : Char}
    (hc : ¬ p c) (hw : ∀ c ∈ word, p c) : (front ++ c :: word).rtakeWhile p = word := by
  have hr : ∀ c ∈ word.reverse, p c := fun c hm => hw c (List.mem_reverse.mp hm)
  rw [List.rtakeWhile, List.reverse_append, List.reverse_cons, List.append_assoc,
    List.takeWhile_append_of_pos hr, List.singleton_append, List.takeWhile_cons_of_neg hc,
    List.append_nil, List.reverse_reverse]

theorem tag?_append_tag (front : String) (n : Nat) :
    tag? (front ++ " " ++ tag n) = some (lineName n) := by
  have hspace : ∀ c ∈ (tag n).toList, decide (c ≠ ' ') = true := by
    intro c hc
    rw [toList_tag] at hc
    apply decide_eq_true
    rintro rfl
    rcases List.mem_append.mp hc with hc | hc
    · exact absurd hc (by decide)
    · exact absurd (isWordChar_of_mem_lineName hc) (by decide)
  have hword : (front ++ " " ++ tag n).toList.rtakeWhile (· ≠ ' ') = (tag n).toList := by
    have htext : (front ++ " " ++ tag n).toList = front.toList ++ ' ' :: (tag n).toList := by simp
    rw [htext]
    exact rtakeWhile_append_cons (by decide) hspace
  rw [tag?, hword, toList_tag, List.drop_left, String.ofList_toList, if_pos]
  exact ⟨List.isPrefixOf_iff_prefix.mpr (List.prefix_append _ _),
    List.all_eq_true.mpr fun _ => isWordChar_of_mem_lineName⟩

/-- A line that ends with a bracket has no tag. -/
theorem tag?_append_bracket (front : String) : tag? (front ++ ">") = none := by
  have hword : (front ++ ">").toList.rtakeWhile (· ≠ ' ') =
      front.toList.rtakeWhile (· ≠ ' ') ++ ['>'] := by
    rw [String.toList_append]
    exact List.rtakeWhile_concat_pos _ _ _ (by decide)
  rw [tag?, hword, if_neg]
  rintro ⟨hmark, hname⟩
  obtain ⟨name, hn⟩ := List.isPrefixOf_iff_prefix.mp hmark
  rw [← hn, List.drop_left, List.all_eq_true] at hname
  have hlast : '>' ∈ "#line:".toList ++ name := hn ▸ List.mem_append_right _ List.mem_cons_self
  rcases List.mem_append.mp hlast with h | h
  · exact absurd h (by decide)
  · exact absurd (hname '>' h) (by decide)

theorem append_close (command : String) : command ++ ">>" = command ++ ">" ++ ">" := by
  rw [String.append_assoc]
  rfl

/-- A statement ends as all commands do. -/
def Content.Closes : Content → Prop
  | .statement s => ∃ front, s = front ++ ">"
  | _ => True

theorem Line.write_of_isTagged (hl : l.isTagged) (n : Nat) :
    ∃ front, l.write n = front ++ " " ++ tag n := by
  suffices h : ∃ front, l.content.write n = front ++ " " ++ tag n by
    obtain ⟨front, hf⟩ := h
    exact ⟨indentation l.depth ++ front, by simp only [write, hf, String.append_assoc]⟩
  obtain ⟨depth, content⟩ := l
  cases content with
  | speech speaker text =>
    cases speaker with
    | none => exact ⟨escape text, rfl⟩
    | some speaker => exact ⟨escape speaker ++ ": " ++ escape text, rfl⟩
  | option label guard =>
    cases guard with
    | none => exact ⟨"-> " ++ escape label, rfl⟩
    | some guard =>
      refine ⟨"-> " ++ escape label ++ " <<if " ++ guard ++ ">>", ?_⟩
      simp only [Content.write, String.append_assoc]
      rfl
  | statement | declaration | branch | endif | scene | jump | stop =>
    exact absurd hl Bool.false_ne_true

theorem Line.write_of_not_isTagged (hl : l.isTagged = false) (hc : l.content.Closes) (n : Nat) :
    ∃ front, l.write n = front ++ ">" := by
  suffices h : ∃ front, l.content.write n = front ++ ">" by
    obtain ⟨front, hf⟩ := h
    exact ⟨indentation l.depth ++ front, by rw [write, hf, String.append_assoc]⟩
  obtain ⟨depth, content⟩ := l
  cases content with
  | speech speaker text => exact absurd hl.symm Bool.false_ne_true
  | option label guard => exact absurd hl.symm Bool.false_ne_true
  | statement s => exact hc
  | declaration ref value => exact ⟨_, append_close _⟩
  | branch guard =>
    cases guard with
    | ifTest expr => exact ⟨_, append_close _⟩
    | elseIf expr => exact ⟨_, append_close _⟩
    | otherwise => exact ⟨_, append_close "<<else"⟩
  | endif => exact ⟨_, append_close "<<endif"⟩
  | scene place =>
    cases place with
    | none => exact ⟨_, append_close "<<scene"⟩
    | some place => exact ⟨_, append_close _⟩
  | jump target => exact ⟨_, append_close _⟩
  | stop => exact ⟨_, append_close "<<stop"⟩

theorem Line.tag?_write (hc : l.content.Closes) (n : Nat) :
    tag? (l.write n) = if l.isTagged then some (lineName n) else none := by
  by_cases hl : l.isTagged
  · obtain ⟨front, hf⟩ := l.write_of_isTagged hl n
    rw [hf, tag?_append_tag, if_pos hl]
  · obtain ⟨front, hf⟩ := l.write_of_not_isTagged (Bool.eq_false_iff.mpr hl) hc n
    rw [hf, tag?_append_bracket, if_neg hl]

end Reading

section Writing

variable {ls : List Line}

/-- A line as it can be written: with some number, which its tag shows if it has one. -/
def Line.Renders (l : Line) (text : String) : Prop :=
  ∃ n, text = l.write n ∧ tag? text = if l.isTagged then some (lineName n) else none

theorem writeLines_append (n : Nat) (ls ms : List Line) : writeLines n (ls ++ ms) =
    ((writeLines n ls).1 ++ (writeLines (writeLines n ls).2 ms).1,
      (writeLines (writeLines n ls).2 ms).2) := by
  induction ls generalizing n with
  | nil => rfl
  | cons l ls ih =>
    rw [List.cons_append, writeLines, writeLines, ih]
    rfl

theorem renders_writeLines (hc : ∀ l ∈ ls, l.content.Closes) (n : Nat) :
    List.Forall₂ Line.Renders ls (writeLines n ls).1 := by
  induction ls generalizing n with
  | nil => exact .nil
  | cons l ls ih =>
    rw [List.forall_mem_cons] at hc
    exact .cons ⟨_, rfl, l.tag?_write hc.1 _⟩ (ih hc.2 _)

/-- The tags of lines are numbered without a gap. -/
theorem tags_writeLines (hc : ∀ l ∈ ls, l.content.Closes) (n : Nat) :
    (writeLines n ls).1.filterMap tag? =
      (List.range' (n + 1) (ls.countP Line.isTagged)).map lineName := by
  induction ls generalizing n with
  | nil => rfl
  | cons l ls ih =>
    rw [List.forall_mem_cons] at hc
    obtain ⟨hl, hls⟩ := hc
    rw [writeLines]
    by_cases ht : l.isTagged
    · have hw := l.tag?_write hl (n + 1)
      rw [if_pos ht] at hw
      rw [List.countP_cons_of_pos ht, List.range'_succ, List.map_cons, if_pos ht,
        List.filterMap_cons_some hw, ih hls]
    · have hw := l.tag?_write hl n
      rw [if_neg ht] at hw
      rw [List.countP_cons_of_neg ht, if_neg ht, List.filterMap_cons_none hw, ih hls]

theorem lines_pages (n : Nat) (nodes : List Node) :
    (pages n nodes).flatMap Page.lines = (writeLines n (bodyLines nodes)).1 := by
  induction nodes generalizing n with
  | nil => rfl
  | cons node nodes ih =>
    have hbody : bodyLines (node :: nodes) = node.body ++ bodyLines nodes := List.flatMap_cons
    rw [pages, List.flatMap_cons, ih, hbody, writeLines_append]

/-- The lines of all pages are those of the project, written in one go. -/
theorem lines_scripts (threshold : Nat) (p : Project) :
    ((scripts threshold p).flatMap Script.pages).flatMap Page.lines =
      (writeLines 0 (scriptLines threshold p)).1 := by
  rw [scripts, pages_tagged, lines_pages]
  rfl

end Writing

section Steps

variable {cx : Context} {l : Line} {sheets : List Sheet} {names : FlowNames}

theorem closes_statementLines (depth : Nat) (assignments : List Json) :
    ∀ l ∈ (statementLines depth assignments).value, l.content.Closes := by
  intro l hl
  obtain ⟨s, hs, rfl⟩ := List.mem_map.mp hl
  rw [Assignment.statements_eq] at hs
  obtain ⟨a, -, ha⟩ := List.mem_filterMap.mp hs
  rcases Assignment.statement?_cases ha with ⟨value, rfl⟩ | ⟨sign, value, rfl⟩ | ⟨value, rfl⟩
  · exact ⟨_, append_close _⟩
  · exact ⟨_, append_close _⟩
  · exact ⟨_, append_close _⟩

theorem jumpContent_cases (cx : Context) (j : Jump) (target : String) :
    (∃ t, jumpContent cx j target = .jump t) ∨ jumpContent cx j target = .stop := by
  unfold jumpContent
  split
  · exact Or.inl ⟨_, rfl⟩
  · split
    · exact Or.inr rfl
    · exact Or.inl ⟨_, rfl⟩

theorem closes_stepLines (cx : Context) (l : Layout) (s : Step) :
    ∀ line ∈ (stepLines cx l s).value, line.content.Closes := by
  cases s with
  | choice id r i =>
    rw [stepLines_choice, List.forall_mem_append]
    exact ⟨List.forall_mem_singleton.mpr trivial, closes_statementLines _ _⟩
  | instruction id assignments => exact closes_statementLines _ _
  | jump id j target =>
    refine List.forall_mem_singleton.mpr ?_
    rcases jumpContent_cases cx j target with ⟨t, h⟩ | h
    · exact h ▸ trivial
    · exact h ▸ trivial
  | dialogue id d =>
    simp only [stepLines, pure]
    split <;> simp [Content.Closes]
  | conditionEnd id b =>
    simp only [stepLines, pure]
    split <;> simp [Content.Closes]
  | conditionBranch | scene | subflow | divert => exact List.forall_mem_singleton.mpr trivial
  | choicesStart | choicesEnd | conditionStart | exit => exact List.forall_mem_nil _

theorem countP_statementLines (depth : Nat) (assignments : List Json) :
    (statementLines depth assignments).value.countP Line.isTagged = 0 := by
  rw [List.countP_eq_zero]
  intro l hl
  obtain ⟨s, -, rfl⟩ := List.mem_map.mp hl
  exact Bool.false_ne_true

/-- A choice has a line with a tag, and so has a dialogue that says something. -/
theorem countP_stepLines (cx : Context) (l : Layout) (s : Step) :
    (stepLines cx l s).value.countP Line.isTagged =
      [s].countP Step.isChoice + [s].countP Step.isSpeech := by
  cases s with
  | choice id r i =>
    rw [stepLines_choice, List.countP_append, countP_statementLines]
    rfl
  | dialogue id d =>
    have hempty : singleLine d.spoken = "" ↔ d.spoken = "" := singleLine_eq_empty
    simp only [stepLines, pure, hempty]
    by_cases hd : d.spoken = ""
    · simp [hd, Step.isSpeech, Step.isChoice]
    · simp [hd, Step.isSpeech, Step.isChoice, Line.isTagged]
  | instruction id assignments => exact countP_statementLines _ _
  | jump id j target =>
    refine List.countP_eq_zero.mpr (List.forall_mem_singleton.mpr ?_)
    rcases jumpContent_cases cx j target with ⟨t, h⟩ | h
    · exact h ▸ Bool.false_ne_true
    · exact h ▸ Bool.false_ne_true
  | conditionEnd id b =>
    simp only [stepLines, pure]
    split <;> rfl
  | conditionBranch | scene | subflow | divert => rfl
  | choicesStart | choicesEnd | conditionStart | exit => rfl

theorem closes_lines (cx : Context) (ss : List Step) :
    ∀ line ∈ (lines cx ss).value, line.content.Closes :=
  (forall_mem_writeSteps fun s _ l => iff_true_intro (closes_stepLines cx l s)).mpr
    fun _ _ => trivial

theorem countP_writeSteps (cx : Context) (l : Layout) (ss : List Step) :
    (writeSteps Layout.next (stepLines cx) l ss).value.countP Line.isTagged =
      ss.countP Step.isChoice + ss.countP Step.isSpeech := by
  induction ss generalizing l with
  | nil => rfl
  | cons s ss ih =>
    have hs : s :: ss = [s] ++ ss := rfl
    rw [writeSteps_cons, hs, List.countP_append, List.countP_append, List.countP_append,
      countP_stepLines, ih]
    omega

theorem countP_lines (cx : Context) (ss : List Step) :
    (lines cx ss).value.countP Line.isTagged =
      ss.countP Step.isChoice + ss.countP Step.isSpeech :=
  countP_writeSteps cx .start ss

theorem closes_flowLines (f : Flow) : ∀ l ∈ flowLines sheets names f, l.content.Closes := by
  rw [flowLines, List.forall_mem_append, List.forall_mem_flatMap]
  exact ⟨closes_lines _ _, fun _ _ => closes_lines _ _⟩

theorem countP_flowLines (f : Flow) :
    (flowLines sheets names f).countP Line.isTagged =
      f.linearize.steps.countP Step.isChoice + f.linearize.steps.countP Step.isSpeech := by
  simp only [flowLines, LinearScript.steps, List.countP_append, List.countP_flatMap,
    Function.comp_def, countP_lines, List.sum_map_add]
  omega

theorem closes_scriptLines (threshold : Nat) (p : Project) :
    ∀ l ∈ scriptLines threshold p, l.content.Closes := by
  rw [scriptLines, bodyLines_scriptFiles, List.forall_mem_append, List.forall_mem_flatMap]
  refine ⟨?_, fun f _ => closes_flowLines f⟩
  rw [declarations, List.forall_mem_map]
  exact fun _ _ => trivial

theorem countP_scriptLines (threshold : Nat) (p : Project) :
    let steps := p.flows.flatMap fun f => f.linearize.steps
    (scriptLines threshold p).countP Line.isTagged =
      steps.countP Step.isChoice + steps.countP Step.isSpeech := by
  intro steps
  have hd : (declarations (variablesOf p.sheets)).countP Line.isTagged = 0 := by
    rw [List.countP_eq_zero, declarations, List.forall_mem_map]
    exact fun _ _ => Bool.false_ne_true
  rw [scriptLines, bodyLines_scriptFiles, List.countP_append, hd, Nat.zero_add]
  simp only [steps, List.countP_flatMap, Function.comp_def, countP_flowLines, List.sum_map_add]

end Steps

/-- The tags of an export are numbered from one on, in the order of its files, pages and lines:
they count its choices and its dialogues that say something, no number is left out and none comes
twice. -/
theorem tags_numbered (s : Settings) (o : Options) (p : Project) :
    let files := scripts s.multiFileThreshold p
    let written := (files.flatMap Script.pages).flatMap Page.lines
    let steps := p.flows.flatMap fun f => f.linearize.steps
    let count := steps.countP Step.isChoice + steps.countP Step.isSpeech
    (output s o p).value = .files (files.map Script.write ++ [metadataFile o p]) ∧
      List.Forall₂ Line.Renders (scriptLines s.multiFileThreshold p) written ∧
      written.filterMap tag? = (List.range' 1 count).map lineName ∧
      (written.filterMap tag?).Nodup ∧
      ∀ n, (fourDigits n).length = max 4 (toString n).length ∧
        Nat.ofDigitChars 10 (fourDigits n).toList 0 = n := by
  intro files written steps count
  have hc := closes_scriptLines s.multiFileThreshold p
  have hw : written = (writeLines 0 (scriptLines s.multiFileThreshold p)).1 := lines_scripts _ p
  have htags : written.filterMap tag? = (List.range' 1 count).map lineName := by
    rw [hw, tags_writeLines hc, countP_scriptLines]
  refine ⟨output_value s o p, hw ▸ renders_writeLines hc 0, htags, ?_, fun n => ⟨?_, ?_⟩⟩
  · rw [htags]
    exact List.Nodup.map lineName_injective (List.nodup_range' ..)
  · exact length_fourDigits n
  · exact ofDigitChars_fourDigits n

end Yarn

end StoryFlow
