import Mathlib.Data.List.Nodup
import Mathlib.Data.List.Pairwise
import StoryFlow.Proofs.Script.FlowNames
import StoryFlow.Proofs.Yarn.Transfers

/-! # Titles of Yarn nodes

The title of a section is the name of its flow and its label with an underscore between them, and
both may hold underscores. Two flows share a title when the name of one continues that of the
other, and what it adds is a label there or begins one. Nothing keeps a flow or a section from
having the title of the node of the declarations either.
-/

namespace StoryFlow

/-- The labels of the sections of a flow. -/
def Flow.labels (f : Flow) : List String :=
  f.linearize.sections.map Section.label

namespace Yarn

section SectionTitle

variable {s t l m : String}

theorem sectionTitle_toList (s l : String) :
    (sectionTitle s l).toList = s.toList ++ '_' :: l.toList := by
  simp [sectionTitle]

theorem sectionTitle_ne (s l : String) : sectionTitle s l ≠ s := by
  intro h
  have hl := congrArg (List.length ∘ String.toList) h
  simp [sectionTitle_toList] at hl

theorem sectionTitle_injective (s : String) : Function.Injective (sectionTitle s) :=
  fun _ _ h => (String.append_right_inj _).mp h

theorem sectionTitle_assoc (s r l : String) :
    sectionTitle (sectionTitle s r) l = sectionTitle s (sectionTitle r l) := by
  simp [sectionTitle, String.append_assoc]

/-- What is between the places where a title is cut starts with an underscore. -/
theorem exists_of_append_sectionTitle {cut : List Char} (ht : t.toList = s.toList ++ cut)
    (hl : '_' :: l.toList = cut ++ '_' :: m.toList) :
    s = t ∧ l = m ∨ ∃ r, t = sectionTitle s r ∧ l = sectionTitle r m := by
  rcases List.cons_eq_append_iff.mp hl with ⟨rfl, he⟩ | ⟨r, rfl, he⟩
  · refine Or.inl ⟨String.toList_inj.mp (by simpa using ht.symm), String.toList_inj.mp ?_⟩
    exact (List.cons.inj he).2.symm
  · refine Or.inr ⟨String.ofList r, String.toList_inj.mp ?_, String.toList_inj.mp ?_⟩
    · rw [sectionTitle_toList, String.toList_ofList, ht]
    · rw [sectionTitle_toList, String.toList_ofList, he]

/-- One title of two sections is cut at one place, or one of the flows' names continues the
other. -/
theorem eq_or_exists_of_sectionTitle_eq (h : sectionTitle s l = sectionTitle t m) :
    s = t ∧ l = m ∨ (∃ r, t = sectionTitle s r ∧ l = sectionTitle r m) ∨
      ∃ r, s = sectionTitle t r ∧ m = sectionTitle r l := by
  have hc := congrArg String.toList h
  rw [sectionTitle_toList, sectionTitle_toList, List.append_eq_append_iff] at hc
  rcases hc with ⟨cut, ht, hl⟩ | ⟨cut, hs, hm⟩
  · exact (exists_of_append_sectionTitle ht hl).imp_right Or.inl
  · exact (exists_of_append_sectionTitle hs hm).imp (fun ⟨h₁, h₂⟩ => ⟨h₁.symm, h₂.symm⟩) Or.inr

/-- The title of the declarations starts with the only underscores that it holds. -/
theorem sectionTitle_eq_declarationsTitle (hs : s ≠ "") :
    sectionTitle s l = declarationsTitle ↔ s = "_" ∧ l = "declarations" := by
  refine ⟨fun h => ?_, by rintro ⟨rfl, rfl⟩; rfl⟩
  have hd : declarationsTitle = sectionTitle "_" "declarations" := rfl
  rcases eq_or_exists_of_sectionTitle_eq (h.trans hd) with he | ⟨r, he, hl⟩ | ⟨r, rfl, hr⟩
  · exact he
  · have hc := congrArg String.toList he
    rw [sectionTitle_toList, show "_".toList = ['_'] from rfl] at hc
    rcases List.cons_eq_append_iff.mp hc with ⟨hn, -⟩ | ⟨rest, -, hn⟩
    · exact absurd (String.toList_inj.mp (hn.trans rfl)) hs
    · simp at hn
  · have hc := congrArg ('_' ∈ String.toList ·) hr
    simp [sectionTitle_toList] at hc

end SectionTitle

section Flows

variable {names : FlowNames} {f g : Flow} {title : String}

/-- The name of the second flow continues that of the first, and what it adds is a label there, or
begins one that ends with a label of the second. -/
def Shadows (names : FlowNames) (f g : Flow) : Prop :=
  ∃ r, names.nameOf digitGuard g = sectionTitle (names.nameOf digitGuard f) r ∧
    (r ∈ f.labels ∨ ∃ l ∈ g.labels, sectionTitle r l ∈ f.labels)

theorem flowTitles_eq (names : FlowNames) (f : Flow) :
    flowTitles names f = names.nameOf digitGuard f ::
      f.labels.map (sectionTitle (names.nameOf digitGuard f)) := by
  rw [flowTitles, Flow.labels, List.map_map]
  rfl

theorem mem_flowTitles : title ∈ flowTitles names f ↔ title = names.nameOf digitGuard f ∨
    ∃ l ∈ f.labels, sectionTitle (names.nameOf digitGuard f) l = title := by
  rw [flowTitles_eq, List.mem_cons, List.mem_map]

theorem nodup_flowTitles (hl : f.labels.Nodup) : (flowTitles names f).Nodup := by
  rw [flowTitles_eq, List.nodup_cons]
  refine ⟨fun h => ?_, hl.map (sectionTitle_injective _)⟩
  obtain ⟨l, -, he⟩ := List.mem_map.mp h
  exact sectionTitle_ne _ _ he

theorem Shadows.exists_mem (h : Shadows names f g) :
    ∃ title ∈ flowTitles names f, title ∈ flowTitles names g := by
  obtain ⟨r, hr, hf | ⟨l, hg, hf⟩⟩ := h
  · exact ⟨_, mem_flowTitles.mpr (Or.inr ⟨r, hf, rfl⟩), mem_flowTitles.mpr (Or.inl hr.symm)⟩
  · refine ⟨_, mem_flowTitles.mpr (Or.inr ⟨_, hf, rfl⟩), mem_flowTitles.mpr (Or.inr ⟨l, hg, ?_⟩)⟩
    rw [hr, sectionTitle_assoc]

/-- Flows of different names share a title only when one shadows the other. -/
theorem disjoint_flowTitles (hn : names.nameOf digitGuard f ≠ names.nameOf digitGuard g) :
    (flowTitles names f).Disjoint (flowTitles names g) ↔
      ¬ Shadows names f g ∧ ¬ Shadows names g f := by
  rw [List.disjoint_left]
  constructor
  · refine fun hdisj => ⟨fun h => ?_, fun h => ?_⟩
    · obtain ⟨title, hf, hg⟩ := h.exists_mem
      exact hdisj hf hg
    · obtain ⟨title, hg, hf⟩ := h.exists_mem
      exact hdisj hf hg
  · rintro ⟨hfg, hgf⟩ title hf hg
    rcases mem_flowTitles.mp hf with rfl | ⟨l, hl, rfl⟩
    · rcases mem_flowTitles.mp hg with he | ⟨m, hm, he⟩
      · exact hn he
      · exact hgf ⟨m, he.symm, Or.inl hm⟩
    · rcases mem_flowTitles.mp hg with he | ⟨m, hm, he⟩
      · exact hfg ⟨l, he.symm, Or.inl hl⟩
      · rcases eq_or_exists_of_sectionTitle_eq he with ⟨h, -⟩ | ⟨r, hr, rfl⟩ | ⟨r, hr, rfl⟩
        · exact hn h.symm
        · exact hgf ⟨r, hr, Or.inr ⟨l, hl, hm⟩⟩
        · exact hfg ⟨r, hr, Or.inr ⟨m, hm, hl⟩⟩

/-- A flow has a node with the title of the declarations. -/
def TakesDeclarations (names : FlowNames) (f : Flow) : Prop :=
  names.nameOf digitGuard f = declarationsTitle ∨
    names.nameOf digitGuard f = "_" ∧ "declarations" ∈ f.labels

theorem declarationsTitle_mem_flowTitles (hn : names.nameOf digitGuard f ≠ "") :
    declarationsTitle ∈ flowTitles names f ↔ TakesDeclarations names f := by
  rw [mem_flowTitles, TakesDeclarations]
  refine or_congr eq_comm ?_
  simp only [sectionTitle_eq_declarationsTitle hn]
  grind

theorem not_shadows_self (names : FlowNames) (f : Flow) : ¬ Shadows names f f := by
  rintro ⟨r, hr, -⟩
  exact sectionTitle_ne _ _ hr.symm

/-- With distinct ids no flow has the name of another one, so all titles of the flows differ when
no flow shadows another. -/
theorem nodup_flatMap_flowTitles {flows : List Flow} (hd : (flows.map Flow.id).Nodup)
    (hl : ∀ f ∈ flows, f.labels.Nodup) :
    (flows.flatMap (flowTitles (.ofFlows digitGuard flows))).Nodup ↔
      ∀ f ∈ flows, ∀ g ∈ flows, ¬ Shadows (.ofFlows digitGuard flows) f g := by
  have hdisjoint : ∀ f ∈ flows, ∀ g ∈ flows, f ≠ g →
      ((flowTitles (.ofFlows digitGuard flows) f).Disjoint
          (flowTitles (.ofFlows digitGuard flows) g) ↔
        ¬ Shadows (.ofFlows digitGuard flows) f g ∧ ¬ Shadows (.ofFlows digitGuard flows) g f) :=
    fun f hf g hg hne => disjoint_flowTitles fun h => hne (FlowNames.nameOf_injOn hd hf hg h)
  rw [List.nodup_flatMap, and_iff_right fun f hf => nodup_flowTitles (hl f hf)]
  constructor
  · intro hp f hf g hg
    by_cases hfg : f = g
    · exact hfg ▸ not_shadows_self _ _
    · have : Std.Symm (Function.onFun List.Disjoint (flowTitles (.ofFlows digitGuard flows))) :=
        ⟨fun _ _ h => List.disjoint_symm h⟩
      exact ((hdisjoint f hf g hg hfg).mp (hp.forall hf hg hfg)).1
  · intro h
    refine (List.Nodup.of_map _ hd).pairwise_of_forall_ne fun f hf g hg hne => ?_
    exact (hdisjoint f hf g hg hne).mpr ⟨h f hf g hg, h g hg f hf⟩

end Flows

section Files

variable {threshold : Nat} {p : Project} {f : Flow}

/-- The declarations are written as a node of their own. -/
def DeclaresApart (threshold : Nat) (p : Project) : Prop :=
  variablesOf p.sheets ≠ [] ∧ (threshold < p.flows.length ∨ p.flows = [])

theorem titles_append (ns ms : List Node) : titles (ns ++ ms) = titles ns ++ titles ms :=
  List.map_append

theorem titles_declarationNodes (vars : List Variable) :
    titles (declarationNodes vars) = if vars = [] then [] else [declarationsTitle] := by
  unfold declarationNodes
  cases vars <;> rfl

instance (threshold : Nat) (p : Project) : Decidable (DeclaresApart threshold p) :=
  inferInstanceAs (Decidable (_ ∧ _))

/-- The titles of an export are those of its flows, behind that of the declarations where these
have a node of their own. -/
theorem titles_scriptFiles_eq (threshold : Nat) (p : Project) (names : FlowNames) :
    titles (fileNodes (scriptFiles threshold p names).value) =
      (if DeclaresApart threshold p then [declarationsTitle] else []) ++
        p.flows.flatMap (flowTitles names) := by
  unfold scriptFiles
  split
  · rename_i ht
    rw [fileNodes_manyFiles, titles_append, titles_allNodes, titles_declarationNodes]
    simp [DeclaresApart, ht]
  · rename_i ht
    rw [fileNodes_singleFile, titles_append, titles_allNodes]
    cases hf : p.flows with
    | nil => simp [titles_declarationNodes, DeclaresApart, hf]
    | cons f fs =>
      have hn : ¬ DeclaresApart threshold p := by
        rintro ⟨-, hlt | he⟩
        · exact ht hlt
        · simp [hf] at he
      rw [if_neg hn]
      simp [titles]

/-- With distinct ids of flows, and distinct labels within each flow, the titles of all nodes of an
export differ exactly when no flow shadows another and none takes the title of the declarations
where they have a node of their own. -/
theorem nodup_titles_scriptFiles (threshold : Nat) (p : Project)
    (hd : (p.flows.map Flow.id).Nodup) (hl : ∀ f ∈ p.flows, f.labels.Nodup) :
    let names := FlowNames.ofFlows digitGuard p.flows
    (titles (fileNodes (scriptFiles threshold p names).value)).Nodup ↔
      (∀ f ∈ p.flows, ∀ g ∈ p.flows, ¬ Shadows names f g) ∧
        (DeclaresApart threshold p → ∀ f ∈ p.flows, ¬ TakesDeclarations names f) := by
  intro names
  have htakes : ∀ f ∈ p.flows,
      (declarationsTitle ∈ flowTitles names f ↔ TakesDeclarations names f) :=
    fun f hf => declarationsTitle_mem_flowTitles (FlowNames.nameOf_ne_empty _ hf)
  have hflows : (p.flows.flatMap (flowTitles names)).Nodup ↔
      ∀ f ∈ p.flows, ∀ g ∈ p.flows, ¬ Shadows names f g := nodup_flatMap_flowTitles hd hl
  rw [titles_scriptFiles_eq, List.nodup_append, hflows]
  by_cases ha : DeclaresApart threshold p
  · have hfree : (∀ title ∈ p.flows.flatMap (flowTitles names), declarationsTitle ≠ title) ↔
        ∀ f ∈ p.flows, ¬ TakesDeclarations names f := by
      rw [List.forall_mem_flatMap]
      exact forall₂_congr fun f hf => List.forall_mem_ne.trans (not_congr (htakes f hf))
    simp only [ha, if_true, List.nodup_singleton, true_and, List.forall_mem_singleton,
      true_implies]
    rw [hfree]
  · simp [ha]

/-- A hero with a purse and two flows; the first one leads to a hub. -/
def quarters (name label other : String) : Project where
  info := ⟨"1", "Quarters", none, none, []⟩
  sheets := [⟨"1", "hero", "Hero", none, none, none,
    [⟨"2", "number", none, [], [], false, some "gold", none⟩]⟩]
  flows := [⟨"1", some name, "First", none, none, true, [],
      [.ofStored "start" "entry" [] none none,
        .ofStored "square" "hub" [("label", .str label)] none none],
      [⟨none, "start", "output", "square", none, none⟩]⟩,
    ⟨"2", some other, "Second", none, none, false, [],
      [.ofStored "start" "entry" [] none none], []⟩]
  scenes := []
  screenplays := []
  localization := .empty
  assets := []

theorem quarters_titles_differ : let p := quarters "old" "town" "new"
    (p.flows.map Flow.id).Nodup ∧ (∀ f ∈ p.flows, f.labels.Nodup) ∧
      titles (fileNodes (scriptFiles 1 p (.ofFlows digitGuard p.flows)).value) =
        ["__declarations", "old", "old_town", "new"] ∧
      ∀ f ∈ p.flows, ∀ g ∈ p.flows, ¬ Shadows (.ofFlows digitGuard p.flows) f g := by
  intro p
  have hd : (p.flows.map Flow.id).Nodup := by decide
  have hl : ∀ f ∈ p.flows, f.labels.Nodup := by decide +kernel
  have ht : titles (fileNodes (scriptFiles 1 p (.ofFlows digitGuard p.flows)).value) =
      ["__declarations", "old", "old_town", "new"] := by decide +kernel
  exact ⟨hd, hl, ht, ((nodup_titles_scriptFiles 1 p hd hl).mp (ht ▸ by decide)).1⟩

/-- A hub of the first flow has the title of the second one; or a flow has that of the
declarations. -/
theorem quarters_titles_equal :
    let p := quarters "old" "town" "old_town"
    let q := quarters "old" "town" "__declarations"
    ((p.flows.map Flow.id).Nodup ∧ (∀ f ∈ p.flows, f.labels.Nodup) ∧
      ¬ (titles (fileNodes (scriptFiles 5 p (.ofFlows digitGuard p.flows)).value)).Nodup) ∧
    (q.flows.map Flow.id).Nodup ∧ (∀ f ∈ q.flows, f.labels.Nodup) ∧
      ¬ (titles (fileNodes (scriptFiles 1 q (.ofFlows digitGuard q.flows)).value)).Nodup := by
  decide +kernel

end Files

end Yarn

end StoryFlow
