import Mathlib.Data.List.Flatten
import StoryFlow.Proofs.Lint.Bodies
import StoryFlow.Proofs.Lint.Names

/-! # The report of duplicates

An Ink script may not define a knot or a variable again, and neither may two files. A Yarn script
is looked at in bodies alone, and there a line counts for the first variable that it declares, while
the files are compared by the titles and the first declarations of all their lines. So a title that
one script gives twice passes, and a declaration in a header counts between two files.
-/

namespace StoryFlow.Lint

open Text

namespace Yarn

/-- The variables that lines of bodies declare first. -/
def firstDeclarations (texts : List (List Char)) : List String :=
  (bodies texts).flatMap fun b => b.lines.filterMap declared?

/-- The titles that headers give, and the variables that bodies declare. -/
def definitions (texts : List (List Char)) : List (NameKind × String) :=
  ((headLines texts).filterMap title?).map (fun t => (.node, String.ofList t)) ++
    (bodies texts).flatMap fun b => b.lines.flatMap fun text =>
      (declaration.all text).map fun name => (.declared, String.ofList name)

section Check

variable {s : State} {texts : List (List Char)}

theorem namesPass_markStep (line : Nat) (text : List Char) (m : Option Mark)
    (blocks : List Block) : NamesPass (markStep line text m blocks).1 := by
  unfold markStep
  split <;> try split
  all_goals simp [Problem.code]

/-- Through a body the check collects the variables. -/
theorem collects_body : Collects step (fun s => s.blocks.isSome) (· ≠ bodyEnd)
    (fun s => s.declared.map Prod.fst) declared? := by
  have hstep : ∀ {s : State} {n : Nat} {text : List Char}, s.blocks.isSome → text ≠ bodyEnd →
      (step s n text).2.blocks.isSome ∧
        Notes (fun s : State => s.declared.map Prod.fst) s (declared? text) (step s n text) := by
    intro s n text hs ht
    obtain ⟨blocks, hs⟩ := Option.isSome_iff_exists.mp hs
    have hend : text ≠ "===".toList := ht
    have hlines : NamesPass (lineIssues n text) := free_lineIssues (by decide) (by decide) n text
    have hmarks := namesPass_markStep n text (Mark.ofLine? text) blocks
    simp only [step, hs, bodyStep, if_neg hend, Option.isSome_some, true_and]
    cases declared? text with
    | none => exact .none (by simp [hlines, hmarks]) rfl
    | some name =>
      have hdefine := namesPass_define .declaredTwice name n s.declared fun _ _ => rfl
      constructor
      · simp only [free_append, hdefine, hlines, hmarks, and_true, Option.mem_some_iff, forall_eq']
      · exact fun hn => map_define _ _ (hn name rfl)
  exact ⟨fun hs ht => (hstep hs ht).1, fun hs ht => (hstep hs ht).2⟩

/-- A walk from outside of bodies reports the variables that a line declares again. -/
theorem namesPass_walk (texts : List (List Char)) (hs : s.blocks = none)
    (hd : (s.declared.map Prod.fst).Nodup) (n : Nat) :
    NamesPass (walk step s n texts).1 ↔
      (firstDeclarations texts ++ s.declared.map Prod.fst).Nodup := by
  induction texts using script_induction generalizing s n with
  | header head hh =>
    obtain ⟨-, hp⟩ := walk_header ["DECL/DUPLICATE"] (n := n) (by decide) hh hs
    simp [firstDeclarations, bodies, sections_header hh, hp, hd]
  | opened head body hh hb =>
    obtain ⟨title, issues, hp, hw⟩ :=
      walk_bodyStart ["DECL/DUPLICATE"] (by decide) (by decide) hh hs n
    have hbody := (collects_body.walk (s := { s with title := title, blocks := some [] }) rfl
      (fun text ht he => hb (he ▸ ht)) hd (n + head.length + 1)).1
    simp [firstDeclarations, bodies, sections_open hh hb, hw, hp, hbody]
  | closed head body behind hh hb ih =>
    obtain ⟨title, issues, hp, hw⟩ :=
      walk_bodyStart ["DECL/DUPLICATE"] (by decide) (by decide) hh hs n
    have hne : ∀ text ∈ body, text ≠ bodyEnd := fun text ht he => hb (he ▸ ht)
    obtain ⟨hbody, hseen⟩ := collects_body.walk (s := { s with title := title, blocks := some [] })
      rfl hne hd (n + head.length + 1)
    have hl := collects_body.inv_walk (s := { s with title := title, blocks := some [] }) rfl hne
      (n + head.length + 1)
    obtain ⟨last, hl⟩ := Option.isSome_iff_exists.mp hl
    obtain ⟨s', n', hs', hdecl, hw'⟩ := walk_bodyEnd hl behind
    have hopen : NamesPass (openIssues last) := free_openIssues (by decide) last
    have hsplit : (firstDeclarations (head ++ bodyStart :: (body ++ bodyEnd :: behind)) ++
        s.declared.map Prod.fst).Perm
        (firstDeclarations behind ++ (body.filterMap declared? ++ s.declared.map Prod.fst)) := by
      simp only [firstDeclarations, bodies, sections_closed hh hb, List.filterMap_cons,
        List.flatMap_cons]
      rw [← List.append_assoc]
      exact List.perm_append_comm.append_right _
    simp only [hw, hw', free_append, hbody, hp, hopen, true_and, hsplit.nodup_iff]
    by_cases hn : (body.filterMap declared? ++ s.declared.map Prod.fst).Nodup
    · have hp' := hseen hn
      rw [← hdecl] at hp'
      have hrest := ih hs' (hp'.nodup_iff.mpr hn) n'
      rw [(hp'.append_left _).nodup_iff] at hrest
      exact (and_iff_right hn).trans hrest
    · exact iff_of_false (fun h => hn h.1) fun h => hn (List.nodup_append.mp h).2.1

theorem namesPass_check (source : String) :
    NamesPass (check source) ↔ (firstDeclarations (lines source)).Nodup := by
  have hend : NamesPass (endIssues (walk step State.initial 1 (lines source)).2) :=
    free_endIssues (by decide) _
  have hwalk := namesPass_walk (s := .initial) (lines source) rfl List.nodup_nil 1
  rw [show State.initial.declared.map Prod.fst = [] from rfl, List.append_nil] at hwalk
  rw [← hwalk]
  exact free_append.trans (and_iff_left hend)

end Check

section Lines

variable {texts : List (List Char)} {text : List Char}

/-- A line but for those around bodies stands in a header or in a body. -/
theorem mem_iff (hs : text ≠ bodyStart) (he : text ≠ bodyEnd) :
    text ∈ texts ↔ text ∈ headLines texts ∨ ∃ b ∈ bodies texts, text ∈ b.lines := by
  induction texts using script_induction with
  | header head hh => simp [headLines, bodies, sections_header hh]
  | opened head body hh hb => simp [headLines, bodies, sections_open hh hb, hs]
  | closed head body behind hh hb ih =>
    have hmem : text ∈ head ++ bodyStart :: (body ++ bodyEnd :: behind) ↔
        text ∈ head ∨ text ∈ body ∨ text ∈ behind := by simp [hs, he]
    rw [hmem, ih]
    simp only [headLines, bodies, sections_closed hh hb, List.flatMap_cons, List.filterMap_cons,
      List.mem_append, List.exists_mem_cons_iff, or_assoc]
    exact or_congr_right or_left_comm

/-- Headers declare nothing, and no line of a body looks like a title. -/
structure Tidy (texts : List (List Char)) : Prop where
  head_declares : ∀ text ∈ headLines texts, declared? text = none
  body_title : ∀ b ∈ bodies texts, ∀ text ∈ b.lines, title? text = none

/-- The headers give no title twice, and no line of a body declares two variables. -/
structure Single (texts : List (List Char)) : Prop where
  titles : ((headLines texts).filterMap title?).Nodup
  declares : ∀ b ∈ bodies texts, ∀ text ∈ b.lines, (declaration.all text).length ≤ 1

instance : DecidablePred Tidy := fun _ =>
  decidable_of_iff (_ ∧ _) ⟨fun h => ⟨h.1, h.2⟩, fun h => ⟨h.1, h.2⟩⟩

instance : DecidablePred Single := fun _ =>
  decidable_of_iff (_ ∧ _) ⟨fun h => ⟨h.1, h.2⟩, fun h => ⟨h.1, h.2⟩⟩

theorem mem_namesOf {name : NameKind × String} : name ∈ namesOf text ↔
    (∃ t, title? text = some t ∧ (.node, String.ofList t) = name) ∨
      ∃ v, (declaration.all text).head? = some v ∧ (.declared, String.ofList v) = name := by
  simp [namesOf, declared?]

theorem mem_definitions {name : NameKind × String} : name ∈ definitions texts ↔
    (∃ text ∈ headLines texts, ∃ t, title? text = some t ∧ (.node, String.ofList t) = name) ∨
      ∃ b ∈ bodies texts, ∃ text ∈ b.lines, ∃ v ∈ declaration.all text,
        (.declared, String.ofList v) = name := by
  simp only [definitions, List.mem_append, List.mem_map, List.mem_filterMap, List.mem_flatMap]
  refine or_congr_left ?_
  constructor
  · rintro ⟨t, ⟨text, hh, ht⟩, hn⟩
    exact ⟨text, hh, t, ht, hn⟩
  · rintro ⟨text, hh, t, ht, hn⟩
    exact ⟨t, ⟨text, hh, ht⟩, hn⟩

theorem ne_of_mem_namesOf {name : NameKind × String} (hn : name ∈ namesOf text) :
    text ≠ bodyStart ∧ text ≠ bodyEnd := by
  constructor
  · rintro rfl
    exact nomatch (show name ∈ [] from hn)
  · rintro rfl
    exact nomatch (show name ∈ [] from hn)

theorem Tidy.mem_definitions {name : NameKind × String} (h : Tidy texts) (ht : text ∈ texts)
    (hn : name ∈ namesOf text) : name ∈ definitions texts := by
  obtain ⟨hs, he⟩ := ne_of_mem_namesOf hn
  rw [Yarn.mem_definitions]
  rcases (mem_iff hs he).mp ht with hh | ⟨b, hb, hl⟩
  · rcases mem_namesOf.mp hn with ⟨t, ht, rfl⟩ | ⟨v, hv, rfl⟩
    · exact .inl ⟨text, hh, t, ht, rfl⟩
    · have hnone := h.head_declares text hh
      rw [declared?, hv] at hnone
      exact nomatch hnone
  · rcases mem_namesOf.mp hn with ⟨t, ht, rfl⟩ | ⟨v, hv, rfl⟩
    · exact nomatch (h.body_title b hb text hl).symm.trans ht
    · exact .inr ⟨b, hb, text, hl, v, List.mem_of_mem_head? hv, rfl⟩

theorem Single.head?_eq (h : Single texts) {b : Body} (hb : b ∈ bodies texts)
    (hl : text ∈ b.lines) : (declaration.all text).head?.toList = declaration.all text := by
  have hle := h.declares b hb text hl
  match declaration.all text, hle with
  | [], _ => rfl
  | [v], _ => rfl

theorem Single.mem_namesOf {name : NameKind × String} (h : Single texts)
    (hn : name ∈ definitions texts) : ∃ text ∈ texts, name ∈ namesOf text := by
  rcases Yarn.mem_definitions.mp hn with ⟨text, hh, t, ht, rfl⟩ | ⟨b, hb, text, hl, v, hv, rfl⟩
  · have hname : (.node, String.ofList t) ∈ namesOf text :=
      Yarn.mem_namesOf.mpr (.inl ⟨t, ht, rfl⟩)
    obtain ⟨hs, he⟩ := ne_of_mem_namesOf hname
    exact ⟨text, (mem_iff hs he).mpr (.inl hh), hname⟩
  · rw [← h.head?_eq hb hl, Option.mem_toList] at hv
    have hname : (.declared, String.ofList v) ∈ namesOf text :=
      Yarn.mem_namesOf.mpr (.inr ⟨v, hv, rfl⟩)
    obtain ⟨hs, he⟩ := ne_of_mem_namesOf hname
    exact ⟨text, (mem_iff hs he).mpr (.inr ⟨b, hb, hl⟩), hname⟩

theorem map_firstDeclarations (texts : List (List Char)) :
    (firstDeclarations texts).map (Prod.mk NameKind.declared) =
      (bodies texts).flatMap fun b => b.lines.flatMap fun text =>
        (declaration.all text).head?.toList.map fun name => (.declared, String.ofList name) := by
  simp [firstDeclarations, List.map_flatMap, List.filterMap_eq_flatMap_toList, declared?,
    Option.toList_map, Function.comp_def]

theorem nodup_firstDeclarations (h : (definitions texts).Nodup) :
    (firstDeclarations texts).Nodup := by
  have hsub : ((firstDeclarations texts).map (Prod.mk NameKind.declared)).Sublist
      (definitions texts) := by
    rw [map_firstDeclarations]
    refine List.Sublist.trans ?_ (List.sublist_append_right _ _)
    refine List.Sublist.flatMap_right _ fun b _ => List.Sublist.flatMap_right _ fun text _ => ?_
    refine List.Sublist.map _ ?_
    cases declaration.all text with
    | nil => exact .slnil
    | cons v vs => exact List.singleton_sublist.mpr List.mem_cons_self
  exact (hsub.nodup h).of_map _

theorem Single.nodup_definitions (h : Single texts) (hd : (firstDeclarations texts).Nodup) :
    (definitions texts).Nodup := by
  have hall : (bodies texts).flatMap (fun b => b.lines.flatMap fun text =>
      (declaration.all text).map fun name => (NameKind.declared, String.ofList name)) =
      (firstDeclarations texts).map (Prod.mk NameKind.declared) := by
    rw [map_firstDeclarations]
    refine List.flatMap_congr fun b hb => List.flatMap_congr fun text hl => ?_
    rw [h.head?_eq hb hl]
  rw [definitions, hall, List.nodup_append]
  refine ⟨h.titles.map fun t t' ht => ?_, hd.map fun v v' hv => ?_, ?_⟩
  · exact String.ofList_injective (congrArg Prod.snd ht)
  · exact congrArg Prod.snd hv
  · rintro _ ht _ hv rfl
    obtain ⟨t, -, rfl⟩ := List.mem_map.mp ht
    obtain ⟨v, -, hv⟩ := List.mem_map.mp hv
    exact nomatch congrArg Prod.fst hv

end Lines

end Yarn

namespace Ink

/-- The name that a line of some kind defines. -/
def Kind.name? : Kind → Option (NameKind × String)
  | knot name => if name.isEmpty then none else some (.knot, String.ofList name)
  | var name _ => some (.var, String.ofList name)
  | _ => none

def State.names (s : State) : List (NameKind × String) :=
  s.knots.map (fun knot => (.knot, knot.1)) ++ s.vars.map fun v => (.var, v.1)

section Line

variable {text name : List Char}

theorem head?_of_knot? (h : knot? text = some name) : text.head? = some '=' := by
  unfold knot? at h
  split at h
  · rfl
  · exact nomatch h

theorem head?_of_stitch? (h : stitch? text = some name) : text.head? = some '=' := by
  unfold stitch? at h
  split at h
  · rfl
  · exact nomatch h

theorem var?_eq_none (h : text.head? = some '=') : var? text = none := by
  cases text with
  | nil => rfl
  | cons c cs =>
    obtain rfl := Option.some.inj h
    rfl

/-- A line defines the name that the check reads off it. -/
theorem namesOf_eq (text : List Char) : namesOf text = (Kind.ofLine text).name?.toList := by
  unfold Kind.ofLine
  split
  · rename_i hblank
    simp only [Bool.or_eq_true, List.isEmpty_iff, List.isPrefixOf_iff_prefix] at hblank
    rcases hblank with rfl | ⟨rest, rfl⟩
    · rfl
    · rfl
  · cases hk : knot? text with
    | some name =>
      simp only [namesOf, hk, var?_eq_none (head?_of_knot? hk), Kind.name?]
      cases name <;> rfl
    | none =>
      cases hs : stitch? text with
      | some name =>
        simp only [namesOf, hk, var?_eq_none (head?_of_stitch? hs)]
        rfl
      | none =>
        cases hv : var? text with
        | some v =>
          simp only [namesOf, hk, hv]
          rfl
        | none =>
          simp only [namesOf, hk, hv]
          -- what is left defines no name
          split
          · rfl
          · split
            · rfl
            · split
              · rfl
              · cases branch? text <;> rfl

end Line

section Step

variable {s : State}

theorem namesPass_divertIssues (line : Nat) (text : List Char) :
    NamesPass (divertIssues line text) :=
  free_flatMap.mpr fun _ _ => free_ite _ (by simp [Problem.code])

theorem namesPass_contentIssues (line : Nat) (text : List Char) :
    NamesPass (contentIssues line text) := by
  have hbrackets : NamesPass (bracketIssues line text) := by
    simp only [bracketIssues]
    split
    · exact free_ite _ (by simp [Problem.code])
    · exact free_ite _ (by simp [Problem.code])
  rw [contentIssues]
  simp only [free_append, free_map]
  exact ⟨⟨free_ite _ (by simp [Problem.code]), fun _ _ => by simp [Problem.code]⟩, hbrackets⟩

theorem namesPass_branchesIssues (bs : List Branch) : NamesPass (branchesIssues bs) := by
  induction bs with
  | nil => exact free_nil
  | cons b bs ih =>
    have hb : NamesPass (branchIssues b bs.isEmpty) := free_append.mpr
      ⟨free_ite _ (by simp [Problem.code]), free_ite _ (by simp [Problem.code])⟩
    exact free_append.mpr ⟨hb, ih⟩

theorem namesPass_blockIssues (b : Block) : NamesPass (blockIssues b) := by
  refine free_append.mpr ⟨namesPass_branchesIssues b.branches, ?_⟩
  split
  · simp [Problem.code]
  · exact free_nil

theorem mem_names_knot {name : String} :
    (.knot, name) ∈ s.names ↔ name ∈ s.knots.map Prod.fst := by
  simp [State.names]

theorem mem_names_var {name : String} : (.var, name) ∈ s.names ↔ name ∈ s.vars.map Prod.fst := by
  simp [State.names]

theorem notes_knotStep (line : Nat) (name : List Char) :
    Notes State.names s (Kind.knot name).name? (knotStep s line name) := by
  cases he : name.isEmpty with
  | true =>
    simp only [knotStep, Kind.name?, he, if_true]
    exact .none (by simp [Problem.code]) rfl
  | false =>
    have hdefine := namesPass_define .knotTwice (.ofList name) line s.knots fun _ _ => rfl
    have hdigits : NamesPass (digitIssues .knot line name) := free_digitIssues (by decide) _ _ _
    simp only [knotStep, Kind.name?, he, Bool.false_eq_true, if_false]
    constructor
    · simp only [free_append, hdigits, hdefine, true_and, Option.mem_some_iff, forall_eq',
        mem_names_knot]
    · intro hn
      have hnew := map_define .knotTwice line (mem_names_knot.not.mp (hn _ rfl))
      have hmap := hnew.map (Prod.mk NameKind.knot)
      rw [List.map_map, List.map_cons, List.map_map] at hmap
      exact hmap.append_right _

theorem notes_varStep (line : Nat) (name value : List Char) :
    Notes State.names s (Kind.var name value).name? (varStep s line name value) := by
  have hdefine := namesPass_define .varTwice (.ofList name) line s.vars fun _ _ => rfl
  have hdigits : NamesPass (digitIssues .var line name) := free_digitIssues (by decide) _ _ _
  have hnulls (b : Prop) [Decidable b] :
      NamesPass (if b then [(Problem.nullWord .var (String.ofList name)).at line] else []) :=
    free_ite b (by simp [Problem.code])
  constructor
  · simp only [varStep, Kind.name?, free_append, hdigits, hnulls, hdefine, true_and,
      Option.mem_some_iff, forall_eq', mem_names_var]
  · intro hn
    have hnew := map_define .varTwice line (mem_names_var.not.mp (hn _ rfl))
    have hmap := hnew.map (Prod.mk NameKind.var)
    rw [List.map_map, List.map_cons, List.map_map] at hmap
    exact (hmap.append_left _).trans List.perm_middle

/-- The check collects the knots and the variables. -/
theorem collects_step : Collects step (fun _ => True) (fun _ => True) State.names
    fun text => (Kind.ofLine text).name? where
  inv_step _ _ := trivial
  notes_step {s n text} _ _ := by
    have hdiverts := namesPass_divertIssues n text
    have hcontent := namesPass_contentIssues n text
    cases hk : Kind.ofLine text <;> simp only [step, hk]
    case knot name => exact notes_knotStep n name
    case var name value => exact notes_varStep n name value
    case blank => exact .none free_nil rfl
    case stitch name =>
      refine .none ?_ rfl
      dsimp only
      split
      · simp [Problem.code]
      · exact free_digitIssues (by decide) _ _ _
    case opening => exact .none hdiverts rfl
    case closing =>
      split
      · exact .none (namesPass_blockIssues _) rfl
      · exact .none (by simp [Problem.code]) rfl
    case branch branch =>
      split
      · exact .none hdiverts rfl
      · exact .none (free_append.mpr ⟨hdiverts, hcontent⟩) rfl
    case content => exact .none (free_append.mpr ⟨hdiverts, hcontent⟩) rfl

end Step

theorem namesPass_check (source : String) :
    NamesPass (check source) ↔ ((lines source).flatMap namesOf).Nodup := by
  have hall : ∀ text ∈ lines source, True := fun _ _ => trivial
  have hwalk := (collects_step.walk (s := .initial) trivial hall
    (by simp [State.names, State.initial]) 1).1
  have hend : NamesPass ((walk step State.initial 1 (lines source)).2.blocks.reverse.map
      fun b => (Problem.unclosedBlock b.line).at b.line) :=
    free_map.mpr fun _ _ => by simp [Problem.code]
  have hnames : (lines source).flatMap namesOf =
      (lines source).filterMap fun text => (Kind.ofLine text).name? := by
    rw [List.filterMap_eq_flatMap_toList]
    exact List.flatMap_congr fun text _ => namesOf_eq text
  rw [show State.initial.names = [] from rfl, List.append_nil] at hwalk
  rw [hnames, ← hwalk]
  exact free_append.trans (and_iff_left hend)

end Ink

namespace Checker

/-- The scripts of one language among the files. -/
def scripts (c : Checker) (files : List OutputFile) : List OutputFile :=
  files.filter (·.filename.endsWith c.fileEnding)

/-- The files differ in their names. -/
def Distinct (files : List OutputFile) : Prop :=
  (files.map OutputFile.filename).Nodup

instance (files : List OutputFile) : Decidable (Distinct files) :=
  inferInstanceAs (Decidable (List.Nodup _))

def ReportsDuplicate (c : Checker) (files : List OutputFile) : Prop :=
  ∃ i ∈ c.checkFiles files, i.problem.code = "DECL/DUPLICATE"

instance (c : Checker) (files : List OutputFile) : Decidable (c.ReportsDuplicate files) :=
  inferInstanceAs (Decidable (∃ i ∈ _, _))

variable {files : List OutputFile}

theorem not_reportsDuplicate {c : Checker} (hd : Distinct (c.scripts files)) :
    ¬ c.ReportsDuplicate files ↔ (∀ f ∈ c.scripts files, NamesPass (c.check f.content)) ∧
      (c.scripts files).Pairwise fun f g => (c.defined f).Disjoint (c.defined g) := by
  rw [ReportsDuplicate, ← not_namesPass, not_not]
  exact namesPass_checkFiles hd

end Checker

section Exports

open Checker

variable {files : List OutputFile}

/-- In an export of Ink a duplicate is reported when a knot or a variable is defined twice. -/
theorem ink_reportsDuplicate_iff (hd : Distinct (ink.scripts files)) :
    ink.ReportsDuplicate files ↔ ¬ ((ink.scripts files).flatMap ink.defined).Nodup := by
  rw [← not_iff_not, not_not, not_reportsDuplicate hd, List.nodup_flatMap]
  exact and_congr_left' (forall₂_congr fun f _ => Ink.namesPass_check f.content)

/-- In an export of Yarn a duplicate is reported when lines of bodies in one script first declare
one variable, or when the lines of two scripts share a name. -/
theorem yarn_not_reportsDuplicate_iff (hd : Distinct (yarn.scripts files)) :
    ¬ yarn.ReportsDuplicate files ↔
      (∀ f ∈ yarn.scripts files, (Yarn.firstDeclarations (lines f.content)).Nodup) ∧
        (yarn.scripts files).Pairwise fun f g => (yarn.defined f).Disjoint (yarn.defined g) := by
  rw [not_reportsDuplicate hd]
  exact and_congr_left' (forall₂_congr fun f _ => Yarn.namesPass_check f.content)

/-- Where headers declare nothing and bodies hold no titles, what is reported is defined twice. -/
theorem not_nodup_definitions (hd : Distinct (yarn.scripts files))
    (ht : ∀ f ∈ yarn.scripts files, Yarn.Tidy (lines f.content))
    (hr : yarn.ReportsDuplicate files) :
    ¬ ((yarn.scripts files).flatMap fun f => Yarn.definitions (lines f.content)).Nodup := by
  intro hn
  rw [List.nodup_flatMap] at hn
  refine (yarn_not_reportsDuplicate_iff hd).mpr ⟨fun f hf => ?_, ?_⟩ hr
  · exact Yarn.nodup_firstDeclarations (hn.1 f hf)
  · refine hn.2.imp_of_mem fun {f g} hf hg hdisj name hnf hng => ?_
    obtain ⟨text, hl, hnf⟩ := List.mem_flatMap.mp hnf
    obtain ⟨text', hl', hng⟩ := List.mem_flatMap.mp hng
    exact hdisj ((ht f hf).mem_definitions hl hnf) ((ht g hg).mem_definitions hl' hng)

/-- Where no script gives a title twice and no line declares two variables, what is defined twice
is reported. -/
theorem yarn_reportsDuplicate (hd : Distinct (yarn.scripts files))
    (hs : ∀ f ∈ yarn.scripts files, Yarn.Single (lines f.content))
    (hn : ¬ ((yarn.scripts files).flatMap fun f => Yarn.definitions (lines f.content)).Nodup) :
    yarn.ReportsDuplicate files := by
  by_contra hr
  obtain ⟨hfirst, hdisj⟩ := (yarn_not_reportsDuplicate_iff hd).mp hr
  refine hn (List.nodup_flatMap.mpr ⟨fun f hf => ?_, ?_⟩)
  · exact (hs f hf).nodup_definitions (hfirst f hf)
  · refine hdisj.imp_of_mem fun {f g} hf hg hdisj name hnf hng => ?_
    obtain ⟨text, hl, hnf⟩ := (hs f hf).mem_namesOf hnf
    obtain ⟨text', hl', hng⟩ := (hs g hg).mem_namesOf hng
    exact hdisj (List.mem_flatMap.mpr ⟨text, hl, hnf⟩) (List.mem_flatMap.mpr ⟨text', hl', hng⟩)

end Exports

open Checker

/-- When a duplicate is reported for files that differ in their names. For Yarn this is as it
should be from left to right where headers declare nothing, and from right to left where no script
gives a title twice and no line declares two variables; for Ink it is so in any case. -/
theorem duplicates_reported (files : List OutputFile) :
    (Distinct (yarn.scripts files) →
      (yarn.ReportsDuplicate files ↔
        (∃ f ∈ yarn.scripts files, ¬ (Yarn.firstDeclarations (lines f.content)).Nodup) ∨
          ¬ (yarn.scripts files).Pairwise fun f g => (yarn.defined f).Disjoint (yarn.defined g)) ∧
      ((∀ f ∈ yarn.scripts files, Yarn.Tidy (lines f.content)) → yarn.ReportsDuplicate files →
        ¬ ((yarn.scripts files).flatMap fun f => Yarn.definitions (lines f.content)).Nodup) ∧
      ((∀ f ∈ yarn.scripts files, Yarn.Single (lines f.content)) →
        ¬ ((yarn.scripts files).flatMap fun f => Yarn.definitions (lines f.content)).Nodup →
        yarn.ReportsDuplicate files)) ∧
    (Distinct (ink.scripts files) →
      (ink.ReportsDuplicate files ↔ ¬ ((ink.scripts files).flatMap ink.defined).Nodup)) := by
  refine ⟨fun hd => ⟨?_, not_nodup_definitions hd, yarn_reportsDuplicate hd⟩,
    ink_reportsDuplicate_iff⟩
  rw [← not_iff_not, yarn_not_reportsDuplicate_iff hd]
  simp only [not_or, not_exists, not_and, not_not]

/-- Two scripts of each language that define one name. -/
def harbors : List OutputFile :=
  [⟨"north.yarn", "title: north\n---\n<<declare $gold = 1>>\n==="⟩,
    ⟨"south.yarn", "title: south\n---\n<<declare $gold = 2>>\n==="⟩,
    ⟨"north.ink", "VAR gold = 1\n=== north ===\n-> END"⟩,
    ⟨"south.ink", "VAR gold = 2\n=== south ===\n-> END"⟩]

theorem harbors_reported :
    Distinct (yarn.scripts harbors) ∧
      (∀ f ∈ yarn.scripts harbors, Yarn.Tidy (lines f.content) ∧ Yarn.Single (lines f.content)) ∧
      yarn.ReportsDuplicate harbors ∧
      ¬ ((yarn.scripts harbors).flatMap fun f => Yarn.definitions (lines f.content)).Nodup ∧
      Distinct (ink.scripts harbors) ∧ ink.ReportsDuplicate harbors := by
  have hd : Distinct (yarn.scripts harbors) := by decide +kernel
  have hd' : Distinct (ink.scripts harbors) := by decide +kernel
  have ht : ∀ f ∈ yarn.scripts harbors,
      Yarn.Tidy (lines f.content) ∧ Yarn.Single (lines f.content) := by decide +kernel
  have hn : ¬ ((yarn.scripts harbors).flatMap fun f =>
      Yarn.definitions (lines f.content)).Nodup := by decide +kernel
  have hr := ((duplicates_reported harbors).1 hd).2.2 (fun f hf => (ht f hf).2) hn
  exact ⟨hd, ht, hr, ((duplicates_reported harbors).1 hd).2.1 (fun f hf => (ht f hf).1) hr, hd',
    ((duplicates_reported harbors).2 hd').mpr (by decide +kernel)⟩

/-- A script that gives a title twice. -/
def town : List OutputFile :=
  [⟨"town.yarn", "title: town\n---\n===\ntitle: town\n---\n==="⟩]

/-- A script whose header holds the words of a declaration, and one that declares the variable. -/
def mint : List OutputFile :=
  [⟨"mint.yarn", "title: mint\ntags: <<declare $gold = 1>>\n---\n==="⟩,
    ⟨"bank.yarn", "title: bank\n---\n<<declare $gold = 2>>\n==="⟩]

/-- A line that declares a variable twice. -/
def purse : List OutputFile :=
  [⟨"purse.yarn", "title: purse\n---\n<<declare $gold = 1>> <<declare $gold = 2>>\n==="⟩]

/-- Two definitions pass, and one definition does not. -/
theorem town_mint_purse_misreported :
    (∀ files ∈ [town, mint, purse], Distinct (yarn.scripts files) ∧
      ∀ f ∈ yarn.scripts files, ∀ b ∈ Yarn.bodies (lines f.content), ∀ text ∈ b.lines,
        Yarn.title? text = none) ∧
    (∀ files ∈ [town, purse], ¬ yarn.ReportsDuplicate files ∧
      ¬ ((yarn.scripts files).flatMap fun f => Yarn.definitions (lines f.content)).Nodup) ∧
    yarn.ReportsDuplicate mint ∧
      ((yarn.scripts mint).flatMap fun f => Yarn.definitions (lines f.content)).Nodup := by
  decide +kernel

end StoryFlow.Lint
