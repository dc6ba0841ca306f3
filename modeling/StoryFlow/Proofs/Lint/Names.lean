import Mathlib.Data.List.Nodup
import StoryFlow.Lint.Files
import StoryFlow.Proofs.Lint.Codes

/-! # Names that are defined twice

A walk through a script notes the names that its lines define, and reports those that it knows
already. A walk through files notes which one defined a name first, and reports a name that
another one defines. As long as nothing is reported, what is noted are the names so far.
-/

namespace StoryFlow.Lint

/-- No issue is about a name that is defined twice. -/
abbrev NamesPass (issues : List Issue) : Prop :=
  Free ["DECL/DUPLICATE"] issues

theorem not_namesPass {issues : List Issue} :
    ¬ NamesPass issues ↔ ∃ i ∈ issues, i.problem.code = "DECL/DUPLICATE" := by
  simp [NamesPass, Free]

section Define

variable (twice : String → Nat → Problem) (name : String) (line : Nat) (seen : List (String × Nat))

variable {name seen} in
theorem firstLine?_eq_none_iff : firstLine? name seen = none ↔ name ∉ seen.map Prod.fst := by
  rw [firstLine?, Option.map_eq_none_iff, List.find?_eq_none, List.mem_map]
  constructor
  · rintro h ⟨entry, he, rfl⟩
    exact h entry he (beq_self_eq_true entry.1)
  · exact fun h entry he hn => h ⟨entry, he, beq_iff_eq.mp hn⟩

theorem namesPass_define (ht : ∀ name first, (twice name first).code = "DECL/DUPLICATE") :
    NamesPass (define twice name line seen).1 ↔ name ∉ seen.map Prod.fst := by
  rw [← firstLine?_eq_none_iff, define]
  cases firstLine? name seen with
  | none => simp
  | some first => simp [ht]

variable {name seen} in
theorem map_define (h : name ∉ seen.map Prod.fst) :
    ((define twice name line seen).2.map Prod.fst).Perm (name :: seen.map Prod.fst) := by
  rw [define, firstLine?_eq_none_iff.mpr h, List.map_append]
  exact List.perm_append_comm

end Define

section Walk

variable {σ α : Type} {step : σ → Nat → List Char → List Issue × σ} {inv : σ → Prop}
  {line : List Char → Prop} {seen : σ → List α} {name? : List Char → Option α} {s : σ}
  {texts : List (List Char)}

/-- A step reports a name that is known already, and adds any other to those that are known. -/
structure Notes (seen : σ → List α) (s : σ) (name : Option α) (out : List Issue × σ) : Prop where
  pass_iff : NamesPass out.1 ↔ ∀ n ∈ name, n ∉ seen s
  seen_perm : (∀ n ∈ name, n ∉ seen s) → (seen out.2).Perm (name.toList ++ seen s)

theorem Notes.none {out : List Issue × σ} (hp : NamesPass out.1) (hs : seen out.2 = seen s) :
    Notes seen s none out where
  pass_iff := by simp [hp]
  seen_perm _ := by simp [hs]

/-- From the states and on the lines in question a step notes the names of lines. -/
structure Collects (step : σ → Nat → List Char → List Issue × σ) (inv : σ → Prop)
    (line : List Char → Prop) (seen : σ → List α) (name? : List Char → Option α) : Prop where
  inv_step : ∀ {s n text}, inv s → line text → inv (step s n text).2
  notes_step : ∀ {s n text}, inv s → line text → Notes seen s (name? text) (step s n text)

theorem Collects.inv_walk (h : Collects step inv line seen name?) (hs : inv s)
    (ht : ∀ text ∈ texts, line text) (n : Nat) : inv (walk step s n texts).2 := by
  induction texts generalizing s n with
  | nil => exact hs
  | cons text texts ih =>
    rw [List.forall_mem_cons] at ht
    exact ih (h.inv_step hs ht.1) ht.2 (n + 1)

/-- What a step does with the name of a line a walk does with the names of all lines. -/
theorem Collects.walk (h : Collects step inv line seen name?) (hs : inv s)
    (ht : ∀ text ∈ texts, line text) (hd : (seen s).Nodup) (n : Nat) :
    (NamesPass (walk step s n texts).1 ↔ (texts.filterMap name? ++ seen s).Nodup) ∧
      ((texts.filterMap name? ++ seen s).Nodup →
        (seen (walk step s n texts).2).Perm (texts.filterMap name? ++ seen s)) := by
  induction texts generalizing s n with
  | nil => simpa [Lint.walk] using hd
  | cons text texts ih =>
    rw [List.forall_mem_cons] at ht
    obtain ⟨hpass, hperm⟩ := h.notes_step (n := n) hs ht.1
    have hnames : ((text :: texts).filterMap name? ++ seen s).Perm
        (texts.filterMap name? ++ ((name? text).toList ++ seen s)) := by
      rw [List.filterMap_eq_flatMap_toList, List.flatMap_cons, ← List.filterMap_eq_flatMap_toList,
        ← List.append_assoc]
      exact List.perm_append_comm.append_right _
    by_cases hn : ∀ name ∈ name? text, name ∉ seen s
    · have hp := hperm hn
      have hd' : ((name? text).toList ++ seen s).Nodup := by
        cases ho : name? text with
        | none => exact hd
        | some name => exact List.nodup_cons.mpr ⟨hn name ho, hd⟩
      obtain ⟨hrest, hseen⟩ := ih (h.inv_step hs ht.1) ht.2 (hp.nodup_iff.mpr hd') (n + 1)
      have hall := (hp.append_left (texts.filterMap name?)).trans hnames.symm
      rw [hall.nodup_iff] at hrest hseen
      simp only [Lint.walk, free_append, hpass, hrest]
      exact ⟨and_iff_right hn, fun hd => (hseen hd).trans hall⟩
    · have hnot : ¬ ((text :: texts).filterMap name? ++ seen s).Nodup := by
        intro hall
        refine hn fun name ho hmem => ?_
        have hd' := (List.nodup_append.mp (hnames.nodup_iff.mp hall)).2.1
        rw [Option.mem_def] at ho
        rw [ho] at hd'
        exact (List.nodup_cons.mp hd').1 hmem
      simp only [Lint.walk, free_append, hpass, hn, hnot, false_and, false_implies, and_true]

end Walk

namespace Checker

variable {c : Checker} {file : String} {names : List ((NameKind × String) × Nat)}
  {owners : List ((NameKind × String) × String)} {name n : NameKind × String}
  {files : List OutputFile}

/-- The names that a script defines. -/
def defined (c : Checker) (f : OutputFile) : List (NameKind × String) :=
  (lines f.content).flatMap c.namesOf

theorem map_names (source : String) :
    (c.names source).map Prod.fst = (lines source).flatMap c.namesOf := by
  have hline : ∀ (texts : List (List Char)) (n : Nat),
      ((texts.zipIdx n).flatMap fun p => (c.namesOf p.1).map (·, p.2)).map Prod.fst =
        texts.flatMap c.namesOf := by
    intro texts n
    induction texts generalizing n with
    | nil => rfl
    | cons text texts ih => simp [ih, Function.comp_def]
  exact hline (lines source) 1

/-- The file that defined a name first. -/
def owner? (owners : List ((NameKind × String) × String)) (name : NameKind × String) :
    Option String :=
  (owners.find? (·.1 == name)).map (·.2)

theorem owner?_append : owner? (owners ++ [(name, file)]) n =
    (owner? owners n).or (if n = name then some file else none) := by
  simp only [owner?, List.find?_append, List.find?_singleton, beq_iff_eq, Option.map_or,
    eq_comm (a := name), apply_ite (Option.map Prod.snd), Option.map_some, Option.map_none]

/-- Each name has an owner once it is settled. -/
theorem owner?_settle : owner? (settle file names owners).2 n =
    (owner? owners n).or (if n ∈ names.map Prod.fst then some file else none) := by
  induction names generalizing owners with
  | nil => simp [settle]
  | cons entry names ih =>
    obtain ⟨name, line⟩ := entry
    have hmem : n ∈ ((name, line) :: names).map Prod.fst ↔ n = name ∨ n ∈ names.map Prod.fst :=
      List.mem_cons
    rw [if_congr hmem rfl rfl]
    cases ho : owners.find? (·.1 == name) with
    | none =>
      simp only [settle, ho, ih, owner?_append, Option.or_assoc]
      by_cases hn : n = name
      · simp only [hn, true_or, if_true, Option.some_or]
      · simp only [hn, false_or, if_false, Option.none_or]
    | some owner =>
      have hs : (settle file ((name, line) :: names) owners).2 = (settle file names owners).2 := by
        simp only [settle, ho]
        split <;> rfl
      rw [hs, ih]
      by_cases hn : n = name
      · simp [hn, owner?, ho]
      · simp only [hn, false_or]

/-- Settling reports the names that another file owns. -/
theorem namesPass_settle : NamesPass (settle file names owners).1 ↔
    ∀ n ∈ names.map Prod.fst, ∀ owner ∈ owner? owners n, owner = file := by
  induction names generalizing owners with
  | nil => simp [settle]
  | cons entry names ih =>
    obtain ⟨name, line⟩ := entry
    rw [List.map_cons, List.forall_mem_cons]
    cases ho : owners.find? (·.1 == name) with
    | none =>
      have hname : owner? owners name = none := by simp [owner?, ho]
      have hnew : ∀ n, (∀ owner ∈ owner? (owners ++ [(name, file)]) n, owner = file) ↔
          ∀ owner ∈ owner? owners n, owner = file := by
        intro n
        rw [owner?_append]
        by_cases hn : n = name
        · simp [hn, hname]
        · simp [hn]
      simp only [settle, ho, ih, hnew, hname]
      simp
    | some owner =>
      have hname : owner? owners name = some owner.2 := by simp [owner?, ho]
      simp only [settle, ho, hname, Option.mem_some_iff, forall_eq']
      split
      · rename_i h
        rw [and_iff_right h, ih]
      · rename_i h
        simp [h, Problem.code]

theorem namesPass_checkFrom (hd : (files.map OutputFile.filename).Nodup)
    (ho : ∀ n, ∀ owner ∈ owner? owners n, owner ∉ files.map OutputFile.filename) :
    NamesPass (c.checkFrom owners files) ↔ (∀ f ∈ files, NamesPass (c.check f.content)) ∧
      (∀ f ∈ files, ∀ n ∈ c.defined f, owner? owners n = none) ∧
      files.Pairwise fun f g => (c.defined f).Disjoint (c.defined g) := by
  induction files generalizing owners with
  | nil => simp [checkFrom]
  | cons f files ih =>
    rw [List.map_cons, List.nodup_cons] at hd
    simp only [List.map_cons, List.mem_cons, not_or] at ho
    have hsettled : ∀ n, owner? (settle f.filename (c.names f.content) owners).2 n =
        (owner? owners n).or (if n ∈ c.defined f then some f.filename else none) := by
      intro n
      rw [owner?_settle, map_names, defined]
    have hfirst : NamesPass (settle f.filename (c.names f.content) owners).1 ↔
        ∀ n ∈ c.defined f, owner? owners n = none := by
      rw [namesPass_settle, map_names, ← defined]
      refine forall₂_congr fun n _ => ?_
      -- an owner of before has another filename
      rw [Option.eq_none_iff_forall_not_mem]
      exact forall₂_congr fun owner hown => ⟨fun h => absurd h (ho n owner hown).1, False.elim⟩
    have howners : ∀ n, ∀ owner ∈ owner? (settle f.filename (c.names f.content) owners).2 n,
        owner ∉ files.map OutputFile.filename := by
      intro n owner hown
      rw [hsettled, Option.mem_def, Option.or_eq_some_iff] at hown
      rcases hown with hown | ⟨-, hown⟩
      · exact (ho n owner hown).2
      · split at hown
        · obtain rfl := Option.some.inj hown
          exact hd.1
        · exact nomatch hown
    have hrest := ih hd.2 howners
    have hnone : (∀ g ∈ files, ∀ n ∈ c.defined g,
        owner? (settle f.filename (c.names f.content) owners).2 n = none) ↔
        (∀ g ∈ files, ∀ n ∈ c.defined g, owner? owners n = none) ∧
          ∀ g ∈ files, (c.defined f).Disjoint (c.defined g) := by
      simp only [hsettled, Option.or_eq_none_iff, ite_eq_right_iff, reduceCtorEq, imp_false,
        forall_and, List.disjoint_right]
    have hcheck : NamesPass ((c.check f.content).map
        fun i => { i with file := some f.filename }) ↔ NamesPass (c.check f.content) := by
      simp [NamesPass, Free]
    simp only [checkFrom, free_append, hcheck, hfirst, hrest, hnone, List.forall_mem_cons,
      List.pairwise_cons]
    constructor
    · rintro ⟨⟨hf, hnf⟩, hfs, ⟨hn, hdisj⟩, hp⟩
      exact ⟨⟨hf, hfs⟩, ⟨hnf, hn⟩, hdisj, hp⟩
    · rintro ⟨⟨hf, hfs⟩, ⟨hnf, hn⟩, hdisj, hp⟩
      exact ⟨⟨hf, hnf⟩, hfs, ⟨hn, hdisj⟩, hp⟩

/-- What is reported of files that differ in their names. -/
theorem namesPass_checkFiles
    (hd : ((files.filter (·.filename.endsWith c.fileEnding)).map OutputFile.filename).Nodup) :
    NamesPass (c.checkFiles files) ↔
      (∀ f ∈ files.filter (·.filename.endsWith c.fileEnding), NamesPass (c.check f.content)) ∧
      (files.filter (·.filename.endsWith c.fileEnding)).Pairwise fun f g =>
        (c.defined f).Disjoint (c.defined g) := by
  rw [checkFiles, namesPass_checkFrom hd (by simp [owner?])]
  simp [owner?]

end Checker

end StoryFlow.Lint
