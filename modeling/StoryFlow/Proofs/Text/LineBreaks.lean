import Mathlib.Data.List.TakeWhile
import StoryFlow.Proofs.Text.Identifier
import StoryFlow.Proofs.Text.Replace

/-! # Line breaks in texts

A text is unbroken when it holds neither a line feed nor a carriage return. Names and identifiers
are. A text that was put on one line holds no line feed, and it holds a carriage return exactly
when the original has one with no line feed among the blanks around it.
-/

namespace StoryFlow.Text

def EndsLine (c : Char) : Prop :=
  c = '\n' ∨ c = '\r'

instance : DecidablePred EndsLine := fun c =>
  inferInstanceAs (Decidable (c = '\n' ∨ c = '\r'))

-- Without it the decision may go through all characters that there are.
instance (cs : List Char) : Decidable (∀ c ∈ cs, ¬ EndsLine c) :=
  List.decidableBAll _ cs

/-- The text holds no line feed and no carriage return. -/
def Unbroken (s : String) : Prop :=
  ∀ c ∈ s.toList, ¬ EndsLine c

instance : DecidablePred Unbroken := fun s =>
  inferInstanceAs (Decidable (∀ c ∈ s.toList, ¬ EndsLine c))

section Unbroken

variable {s t : String} {cs : List Char}

@[simp] theorem unbroken_append : Unbroken (s ++ t) ↔ Unbroken s ∧ Unbroken t := by
  simp only [Unbroken, String.toList_append, List.forall_mem_append]

theorem unbroken_onChars {f : List Char → List Char} :
    Unbroken (onChars f s) ↔ ∀ c ∈ f s.toList, ¬ EndsLine c := by
  rw [Unbroken, onChars, String.toList_ofList]

theorem unbroken_intercalate {sep : String} (hsep : Unbroken sep) (parts : List String) :
    Unbroken (sep.intercalate parts) ↔ ∀ part ∈ parts, Unbroken part := by
  induction parts with
  | nil => exact iff_of_true (by simp [Unbroken]) (by simp)
  | cons a parts ih =>
    cases parts with
    | nil => simp
    | cons b parts =>
      rw [String.intercalate_cons_cons, unbroken_append, unbroken_append, ih, List.forall_mem_cons]
      simp [hsep]

end Unbroken

section Plain

variable {c : Char} {s : String}

theorem not_endsLine_of {p : Char → Bool} (hn : p '\n' = false) (hr : p '\r' = false) (hc : p c) :
    ¬ EndsLine c := by
  rintro (rfl | rfl)
  · exact Bool.false_ne_true (hn.symm.trans hc)
  · exact Bool.false_ne_true (hr.symm.trans hc)

theorem not_endsLine_replicate {n : Nat} (hc : ¬ EndsLine c) :
    ∀ a ∈ List.replicate n c, ¬ EndsLine a :=
  List.forall_mem_replicate.mpr (Or.inr hc)

theorem not_endsLine_toDigits (n : Nat) : ∀ c ∈ Nat.toDigits 10 n, ¬ EndsLine c := by
  intro c hc
  exact not_endsLine_of (by decide) (by decide)
    (Nat.isDigit_of_mem_toDigits (by decide) (by decide) hc)

theorem unbroken_toString (n : Nat) : Unbroken (toString n) := by
  intro c hc
  rw [Nat.toString_eq_repr, Nat.toList_repr] at hc
  exact not_endsLine_toDigits n c hc

theorem isDigit_of_mem_fourDigits {n : Nat} (hc : c ∈ (fourDigits n).toList) : c.isDigit := by
  rw [fourDigits, padLeft, String.toList_ofList] at hc
  rcases List.mem_append.mp hc with hc | hc
  · rw [List.eq_of_mem_replicate hc]
    decide
  · exact Nat.isDigit_of_mem_toDigits (by decide) (by decide) hc

theorem length_fourDigits (n : Nat) :
    (fourDigits n).length = max 4 (toString n).length := by
  have hn : (toString n).length = (Nat.toDigits 10 n).length := by
    rw [Nat.toString_eq_repr, ← String.length_toList, Nat.toList_repr]
  rw [hn, fourDigits, String.length_ofList, padLeft, List.length_append, List.length_replicate]
  omega

theorem ofDigitChars_fourDigits (n : Nat) : Nat.ofDigitChars 10 (fourDigits n).toList 0 = n := by
  rw [fourDigits, String.toList_ofList, padLeft, Nat.ofDigitChars_append,
    Nat.ofDigitChars_replicate_zero, Nat.mul_zero, Nat.ofDigitChars_ten_toDigits]

theorem unbroken_fourDigits (n : Nat) : Unbroken (fourDigits n) := fun _ hc =>
  not_endsLine_of (by decide) (by decide) (isDigit_of_mem_fourDigits hc)

theorem IsWord.unbroken (hs : IsWord s) : Unbroken s := fun c hc =>
  not_endsLine_of (by decide) (by decide) (hs c hc)

theorem unbroken_identifier (s : String) : Unbroken (identifier s) :=
  (isWord_identifier s).unbroken

theorem unbroken_guardDigit {guard : String} (hg : Unbroken guard) :
    Unbroken (guardDigit guard s) ↔ Unbroken s := by
  unfold guardDigit
  split
  · rw [unbroken_append, and_iff_right hg]
  · exact Iff.rfl

end Plain

section Pieces

variable {sep : Char} {cs : List Char}

theorem pieces_append_cons (sep : Char) (cs ds : List Char) :
    pieces sep (cs ++ sep :: ds) = pieces sep cs ++ pieces sep ds := by
  have hne : ∀ cs, pieces sep cs ≠ [] := by
    intro cs
    induction cs with
    | nil => simp [pieces]
    | cons c cs ih => rw [pieces]; split <;> [simp; split <;> simp]
  induction cs with
  | nil => simp [pieces]
  | cons c cs ih =>
    rw [List.cons_append, pieces, pieces, ih]
    split
    · rfl
    · obtain ⟨p, ps, hp⟩ := List.exists_cons_of_ne_nil (hne cs)
      rw [hp]
      rfl

theorem pieces_of_not_mem (h : sep ∉ cs) : pieces sep cs = [cs] := by
  induction cs with
  | nil => rfl
  | cons c cs ih =>
    rw [List.mem_cons, not_or] at h
    rw [pieces, if_neg (Ne.symm h.1), ih h.2]

end Pieces

section LoneReturn

variable {c : Char} {cs ds run : List Char}

/-- A carriage return that has no line feed among the blanks before and behind it. -/
def LoneReturn (cs : List Char) : Prop :=
  ∃ before after, cs = before ++ '\r' :: after ∧ '\n' ∉ before.reverse.takeWhile isBlank ∧
    '\n' ∉ after.takeWhile isBlank

theorem takeWhile_append_cons {p : Char → Bool} (hc : p c = false) (cs ds : List Char) :
    (cs ++ c :: ds).takeWhile p = cs.takeWhile p := by
  induction cs with
  | nil => simp [hc]
  | cons a cs ih =>
    rw [List.cons_append, List.takeWhile_cons, List.takeWhile_cons, ih]

theorem loneReturn_blanks (hrun : ∀ c ∈ run, isBlank c) :
    LoneReturn run ↔ '\r' ∈ run ∧ '\n' ∉ run := by
  constructor
  · rintro ⟨before, after, rfl, hb, ha⟩
    rw [List.forall_mem_append, List.forall_mem_cons] at hrun
    rw [List.takeWhile_eq_self_iff.mpr (by simpa using hrun.1), List.mem_reverse] at hb
    rw [List.takeWhile_eq_self_iff.mpr hrun.2.2] at ha
    simp [hb, ha]
  · rintro ⟨hr, hn⟩
    obtain ⟨before, after, rfl⟩ := List.append_of_mem hr
    refine ⟨before, after, rfl, fun h => hn ?_, fun h => hn ?_⟩
    · have hb : '\n' ∈ before.reverse := (List.takeWhile_sublist _).subset h
      exact List.mem_append_left _ (List.mem_reverse.mp hb)
    · have ha : '\n' ∈ after := (List.takeWhile_sublist _).subset h
      exact List.mem_append_right _ (List.mem_cons_of_mem _ ha)

/-- What stands on one side of a character that is not blank does not matter on the other. -/
theorem loneReturn_append_cons (hc : isBlank c = false) :
    LoneReturn (cs ++ c :: ds) ↔ LoneReturn cs ∨ LoneReturn ds := by
  have hne : c ≠ '\r' := by
    rintro rfl
    exact absurd hc (by decide)
  constructor
  · rintro ⟨before, after, he, hb, ha⟩
    rcases List.append_eq_append_iff.mp he with ⟨mid, rfl, hm⟩ | ⟨mid, rfl, hm⟩
    · rcases List.cons_eq_append_iff.mp hm with ⟨-, h⟩ | ⟨mid, rfl, rfl⟩
      · exact absurd (List.cons.inj h).1.symm hne
      · rw [List.reverse_append, List.reverse_cons, List.append_assoc, List.singleton_append,
          takeWhile_append_cons hc] at hb
        exact Or.inr ⟨mid, after, rfl, hb, ha⟩
    · rcases List.cons_eq_append_iff.mp hm with ⟨-, h⟩ | ⟨mid, rfl, rfl⟩
      · exact absurd (List.cons.inj h).1 hne
      · rw [takeWhile_append_cons hc] at ha
        exact Or.inl ⟨before, mid, rfl, hb, ha⟩
  · rintro (⟨before, after, rfl, hb, ha⟩ | ⟨before, after, rfl, hb, ha⟩)
    · refine ⟨before, after ++ c :: ds, by simp, hb, ?_⟩
      rwa [takeWhile_append_cons hc]
    · refine ⟨cs ++ c :: before, after, by simp, ?_, ha⟩
      rwa [List.reverse_append, List.reverse_cons, List.append_assoc, List.singleton_append,
        takeWhile_append_cons hc]

end LoneReturn

section SingleLine

variable {c : Char} {cs ds run : List Char}

/-- A text is a run of blanks, or has one in front of a character that is not blank and another
text behind that. -/
theorem runs_induction {P : List Char → Prop} (last : ∀ run, (∀ c ∈ run, isBlank c) → P run)
    (next : ∀ run c cs, (∀ b ∈ run, isBlank b) → isBlank c = false → P cs → P (run ++ c :: cs))
    (cs : List Char) : P cs := by
  have hrun : ∀ c ∈ cs.takeWhile isBlank, isBlank c := fun c => List.mem_takeWhile_imp
  rw [← List.takeWhile_append_dropWhile (p := isBlank) (l := cs)]
  cases hd : cs.dropWhile isBlank with
  | nil => simpa using last _ hrun
  | cons c rest =>
    have hc : isBlank c = false := by
      simpa [hd] using List.head_dropWhile_not isBlank (l := cs) (by simp [hd])
    exact next _ c rest hrun hc (runs_induction last next rest)
termination_by cs.length
decreasing_by
  have := List.length_dropWhile_le isBlank cs
  rw [hd] at this
  exact this

/-- A run of blanks with a line feed becomes one space. -/
def mendRun (run : List Char) : List Char :=
  if '\n' ∈ run then [' '] else run

theorem brokenRun_append (hrun : ∀ c ∈ run, isBlank c) (hds : ds.takeWhile isBlank = []) :
    brokenRun (run ++ ds) = if '\n' ∈ run then run.length else 0 := by
  rw [brokenRun, List.takeWhile_append_of_pos hrun, hds, List.append_nil]

theorem substitute_run (hrun : ∀ c ∈ run, isBlank c) (hds : ds.takeWhile isBlank = []) :
    substitute brokenRun [' '] (run ++ ds) = mendRun run ++ substitute brokenRun [' '] ds := by
  by_cases hn : '\n' ∈ run
  · obtain ⟨c, cs, rfl⟩ := List.exists_cons_of_ne_nil (List.ne_nil_of_mem hn)
    have hb := brokenRun_append hrun hds
    rw [if_pos hn, List.length_cons] at hb
    rw [List.cons_append] at hb ⊢
    rw [substitute, substituteFrom, hb, mendRun, if_pos hn]
    simp [substituteFrom_eq_drop]
  · rw [mendRun, if_neg hn]
    induction run with
    | nil => rfl
    | cons c cs ih =>
      have hb := brokenRun_append hrun hds
      rw [if_neg hn] at hb
      rw [List.cons_append] at hb ⊢
      rw [substitute, substituteFrom, hb]
      exact congrArg (c :: ·) (ih (List.forall_mem_cons.mp hrun).2 fun h => hn (by simp [h]))

theorem mendRun_unbroken (hrun : ∀ c ∈ run, isBlank c) :
    (∀ c ∈ mendRun run, ¬ EndsLine c) ↔ ¬ LoneReturn run := by
  rw [loneReturn_blanks hrun, mendRun]
  split
  · rename_i hn
    exact iff_of_true (by decide) fun h => h.2 hn
  · rename_i hn
    simp only [EndsLine, hn, not_false_eq_true, and_true]
    constructor
    · exact fun h hr => h _ hr (Or.inr rfl)
    · rintro h c hc (rfl | rfl)
      · exact hn hc
      · exact h hc

/-- A text on one line is unbroken unless it came with a lone carriage return. -/
theorem unbroken_singleLine {s : String} : Unbroken (singleLine s) ↔ ¬ LoneReturn s.toList := by
  rw [singleLine, unbroken_onChars]
  induction s.toList using runs_induction with
  | last run hrun =>
    rw [← List.append_nil run, substitute_run hrun rfl]
    simpa [substitute, substituteFrom] using mendRun_unbroken hrun
  | next run c cs hrun hc ih =>
    have hcons : substitute brokenRun [' '] (c :: cs) = c :: substitute brokenRun [' '] cs := by
      have hb : brokenRun (c :: cs) = 0 := by simp [brokenRun, hc]
      rw [substitute, substituteFrom, hb]
      rfl
    have hne : ¬ EndsLine c := by
      rintro (rfl | rfl) <;> exact absurd hc (by decide)
    rw [substitute_run hrun (by simp [hc]), hcons, List.forall_mem_append, List.forall_mem_cons,
      mendRun_unbroken hrun, ih, loneReturn_append_cons hc, not_or]
    simp [hne]

end SingleLine

end StoryFlow.Text
