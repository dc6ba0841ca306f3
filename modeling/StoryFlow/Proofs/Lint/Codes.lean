import StoryFlow.Lint.Yarn

/-! # Issues without some codes

A property of a report is often that nothing in it has one of a few codes. The parts of a report
are looked at one by one.
-/

namespace StoryFlow.Lint

/-- No issue has one of the codes. -/
def Free (codes : List String) (issues : List Issue) : Prop :=
  ∀ i ∈ issues, i.problem.code ∉ codes

instance (codes : List String) (issues : List Issue) : Decidable (Free codes issues) :=
  inferInstanceAs (Decidable (∀ i ∈ issues, _))

section Free

variable {α : Type} {codes : List String} {i : Issue} {issues more : List Issue}

@[simp] theorem free_nil : Free codes [] := fun _ hi => absurd hi List.not_mem_nil

@[simp] theorem free_cons :
    Free codes (i :: issues) ↔ i.problem.code ∉ codes ∧ Free codes issues :=
  List.forall_mem_cons

@[simp] theorem free_append : Free codes (issues ++ more) ↔ Free codes issues ∧ Free codes more :=
  List.forall_mem_append

@[simp] theorem free_flatMap {xs : List α} {f : α → List Issue} :
    Free codes (xs.flatMap f) ↔ ∀ x ∈ xs, Free codes (f x) := by
  simp only [Free, List.mem_flatMap]
  exact ⟨fun h x hx i hi => h i ⟨x, hx, hi⟩, fun h i ⟨x, hx, hi⟩ => h x hx i hi⟩

@[simp] theorem free_map {xs : List α} {f : α → Issue} :
    Free codes (xs.map f) ↔ ∀ x ∈ xs, (f x).problem.code ∉ codes :=
  List.forall_mem_map

@[simp] theorem problem_at (p : Problem) (line : Nat) : (p.at line).problem = p := rfl

/-- An issue that is reported under a condition. -/
theorem free_ite (b : Prop) [Decidable b] (hi : i.problem.code ∉ codes) :
    Free codes (if b then [i] else []) := by
  split
  · exact free_cons.mpr ⟨hi, free_nil⟩
  · exact free_nil

theorem free_digitIssues (hc : "TOKEN/LEADING_DIGIT" ∉ codes) (place : NamePlace) (line : Nat)
    (name : List Char) : Free codes (digitIssues place line name) :=
  free_ite _ hc

theorem Yarn.free_lineIssues (hd : "TOKEN/LEADING_DIGIT" ∉ codes)
    (hn : "TOKEN/NULL_LITERAL" ∉ codes) (line : Nat) (text : List Char) :
    Free codes (lineIssues line text) := by
  simp only [lineIssues, free_append, free_flatMap, free_map]
  exact ⟨⟨fun _ _ _ _ => free_digitIssues hd _ _ _, fun _ _ => free_digitIssues hd _ _ _⟩,
    fun _ _ => hn⟩

theorem Yarn.free_openIssues (hc : "BLOCK/UNBALANCED" ∉ codes) (blocks : List Block) :
    Free codes (openIssues blocks) :=
  free_map.mpr fun _ _ => hc

theorem Yarn.free_endIssues (hc : "BLOCK/UNBALANCED" ∉ codes) (s : State) :
    Free codes (endIssues s) := by
  unfold endIssues
  split
  · exact free_nil
  · exact free_cons.mpr ⟨hc, free_openIssues hc _⟩

end Free

end StoryFlow.Lint
