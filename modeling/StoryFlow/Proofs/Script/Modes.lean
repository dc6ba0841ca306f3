import StoryFlow.Ink.Document
import StoryFlow.Proofs.Expr.Guards
import StoryFlow.Proofs.Yarn.Transfers

/-! # Exports in one file and in many

Whether a script is one file or has a file per flow changes where its declarations stand and
nothing else: knots, nodes and their tags follow each other in the same way.
-/

namespace StoryFlow

section Lines

variable {sep last : String} {front rest : List String}

theorem intercalate_concat_ne_empty (hl : last ≠ "") (front : List String) :
    sep.intercalate (front ++ [last]) ≠ "" := by
  by_cases hf : front = []
  · rwa [hf, List.nil_append, String.intercalate_singleton]
  · rw [String.intercalate_append_of_ne_nil hf (List.cons_ne_nil _ _), String.intercalate_singleton,
      ne_eq, String.append_eq_empty_iff]
    exact fun h => hl h.2

theorem intercalate_intercalate_cons (hf : front ≠ []) :
    sep.intercalate (sep.intercalate front :: rest) = sep.intercalate (front ++ rest) := by
  by_cases hr : rest = []
  · rw [hr, String.intercalate_singleton, List.append_nil]
  · rw [String.intercalate_cons_of_ne_nil hr, String.intercalate_append_of_ne_nil hf hr]

end Lines

namespace Ink

/-- A script file: the lines in front of its knots, and the knots. -/
structure Script where
  filename : String
  front : List String
  knots : List Knot

def Script.write (s : Script) : OutputFile :=
  ⟨s.filename, "\n".intercalate (s.front ++ s.knots.map Knot.write)⟩

/-- The lines in front of the knots in the one file of a project. -/
def frontOfAll (p : Project) (names : FlowNames) : List String :=
  let header := declarationLines (variablesOf p.sheets)
  header ++ (if header.isEmpty then [] else [""]) ++ startLines names p.flows

/-- The lines of the file that includes the others. -/
def frontOfMain (p : Project) (names : FlowNames) : List String :=
  declarationLines (variablesOf p.sheets) ++
    "" :: ((p.flows.map fun f => "INCLUDE " ++ names.nameOf digitGuard f ++ ".ink") ++
      "" :: (startLines names p.flows ++ [""]))

/-- The scripts of a project; above the threshold every flow has one of its own. -/
def scripts (threshold : Nat) (p : Project) : List Script :=
  let names := FlowNames.ofFlows digitGuard p.flows
  let knots := (knots p names p.flows).value
  if threshold < p.flows.length then
    ⟨"main.ink", frontOfMain p names, []⟩ :: knots.map fun k => ⟨k.name ++ ".ink", [], [k]⟩
  else [⟨p.info.identifier ++ ".ink", frontOfAll p names, knots⟩]

/-- The file of metadata. -/
def metadataFile (o : Options) (p : Project) : OutputFile :=
  let names := FlowNames.ofFlows digitGuard p.flows
  let warnings := (knots p names p.flows).notes.warnings
  ⟨"metadata.json", (scriptMetadata metadataStyle p names warnings).text o.prettyPrint⟩

/-- The line declares a variable. -/
def isDeclaration (line : String) : Bool :=
  "VAR ".toList.isPrefixOf line.toList

/-- Scripts with the same declarations in front and the same knots. -/
structure SameStory (ss ts : List Script) : Prop where
  declarations : (ss.flatMap Script.front).filter isDeclaration =
    (ts.flatMap Script.front).filter isDeclaration
  knots : (ss.flatMap Script.knots).map Knot.write = (ts.flatMap Script.knots).map Knot.write

section Files

variable {p : Project} {names : FlowNames} {ks : List Knot}

theorem write_manyFiles :
    manyFiles p names ks = Script.write ⟨"main.ink", frontOfMain p names, []⟩ ::
      ks.map fun k => Script.write ⟨k.name ++ ".ink", [], [k]⟩ := by
  have hmain : frontOfMain p names = (declarationLines (variablesOf p.sheets) ++
      "" :: ((p.flows.map fun f => "INCLUDE " ++ names.nameOf digitGuard f ++ ".ink") ++
        "" :: startLines names p.flows)) ++ [""] := by
    simp only [frontOfMain, List.append_assoc, List.cons_append]
  rw [manyFiles, Script.write, hmain, List.map_nil, List.append_nil,
    String.intercalate_append_of_ne_nil (by simp) (List.cons_ne_nil _ _),
    String.intercalate_singleton, String.append_empty]
  simp only [endLines, Script.write, List.map_cons, List.map_nil, List.nil_append,
    String.intercalate_singleton]

theorem startLines_eq_singleton (names : FlowNames) {fs : List Flow} (hf : fs ≠ []) :
    ∃ name, startLines names fs = ["-> " ++ name] := by
  obtain ⟨f, hs⟩ : ∃ f, startFlow fs = some f := by
    rw [← Option.isSome_iff_exists, startFlow, Option.orElse_eq_orElse, Option.orElse_eq_or]
    simp [List.isSome_head?, hf]
  exact ⟨names.nameOf digitGuard f, by rw [startLines, hs]; rfl⟩

theorem write_singleFile (hk : p.flows = [] → ks = []) :
    singleFile p names ks =
      [Script.write ⟨p.info.identifier ++ ".ink", frontOfAll p names, ks⟩] := by
  change [OutputFile.mk _ ("\n".intercalate (("\n".intercalate (frontOfAll p names) ::
    ks.map Knot.write).filter (· ≠ "")))] = _
  rw [Script.write]
  by_cases hf : p.flows = []
  · rw [hk hf, List.map_nil, List.append_nil]
    by_cases he : "\n".intercalate (frontOfAll p names) = "" <;> simp [he]
  · obtain ⟨name, hs⟩ := startLines_eq_singleton names hf
    have hne : "\n".intercalate (frontOfAll p names) ≠ "" := by
      rw [frontOfAll, hs]
      exact intercalate_concat_ne_empty (by simp) _
    have hfront : frontOfAll p names ≠ [] := by
      rw [frontOfAll, hs]
      exact List.concat_ne_nil _ _
    rw [List.filter_eq_self.mpr, intercalate_intercalate_cons hfront]
    rw [List.forall_mem_cons]
    refine ⟨decide_eq_true hne, ?_⟩
    rw [List.forall_mem_map]
    intro k _
    simp [Knot.write, endLines]

/-- The files of an export are its scripts, written out. -/
theorem scriptFiles_eq (threshold : Nat) (p : Project) :
    let names := FlowNames.ofFlows digitGuard p.flows
    scriptFiles threshold p names (knots p names p.flows).value =
      (scripts threshold p).map Script.write := by
  intro names
  have hk : p.flows = [] → (knots p names p.flows).value = [] := by
    intro hf
    rw [hf]
    rfl
  rw [scriptFiles, scripts]
  split
  · rw [write_manyFiles, List.map_cons, List.map_map]
    rfl
  · exact write_singleFile hk

end Files

section Stories

variable {p : Project}

theorem isDeclaration_declarationLines (vars : List Variable) :
    (declarationLines vars).filter isDeclaration = declarationLines vars := by
  rw [List.filter_eq_self]
  intro l hl
  obtain ⟨v, -, rfl⟩ := List.mem_map.mp hl
  simp [isDeclaration, String.append_assoc]

theorem isDeclaration_startLines (names : FlowNames) (fs : List Flow) :
    (startLines names fs).filter isDeclaration = [] := by
  rw [List.filter_eq_nil_iff]
  intro l hl
  obtain ⟨f, -, rfl⟩ := List.mem_map.mp hl
  simp [isDeclaration]

theorem isDeclaration_frontOfAll (names : FlowNames) :
    (frontOfAll p names).filter isDeclaration = declarationLines (variablesOf p.sheets) := by
  have hgap : (if (declarationLines (variablesOf p.sheets)).isEmpty then [] else [""]).filter
      isDeclaration = [] := by
    split <;> rfl
  rw [frontOfAll, List.filter_append, List.filter_append, isDeclaration_declarationLines, hgap,
    isDeclaration_startLines, List.append_nil, List.append_nil]

theorem isDeclaration_frontOfMain (names : FlowNames) :
    (frontOfMain p names).filter isDeclaration = declarationLines (variablesOf p.sheets) := by
  have hblank : isDeclaration "" = false := rfl
  have hincludes : (p.flows.map fun f => "INCLUDE " ++ names.nameOf digitGuard f ++ ".ink").filter
      isDeclaration = [] := by
    rw [List.filter_eq_nil_iff]
    intro l hl
    obtain ⟨f, -, rfl⟩ := List.mem_map.mp hl
    simp [isDeclaration]
  simp only [frontOfMain, List.filter_append, List.filter_cons, List.filter_nil, hblank,
    Bool.false_eq_true, if_false, isDeclaration_declarationLines, isDeclaration_startLines,
    hincludes, List.append_nil]

/-- In front of the knots stand the declarations of all variables, and the knots are those of the
flows in their order. -/
theorem scripts_hold (threshold : Nat) (p : Project) :
    ((scripts threshold p).flatMap Script.front).filter isDeclaration =
        declarationLines (variablesOf p.sheets) ∧
      (scripts threshold p).flatMap Script.knots =
        (knots p (FlowNames.ofFlows digitGuard p.flows) p.flows).value := by
  unfold scripts
  split
  · constructor
    · simp [List.flatMap_map, isDeclaration_frontOfMain]
    · simp [List.flatMap_map]
  · constructor
    · rw [List.flatMap_singleton, isDeclaration_frontOfAll]
    · rw [List.flatMap_singleton]

theorem sameStory_scripts (m n : Nat) (p : Project) :
    SameStory (scripts m p) (scripts n p) where
  declarations := (scripts_hold m p).1.trans (scripts_hold n p).1.symm
  knots := by rw [(scripts_hold m p).2, (scripts_hold n p).2]

/-- Of the settings, only the threshold counts, and only for the scripts. -/
theorem output_value (s : Settings) (o : Options) (p : Project) :
    (output s o p).value =
      .files ((scripts s.multiFileThreshold p).map Script.write ++ [metadataFile o p]) := by
  rw [← scriptFiles_eq]
  rfl

end Stories

end Ink

namespace Yarn

/-- A node as it is written, with the tags of its lines. -/
structure Page where
  title : String
  lines : List String

def Page.write (q : Page) : String :=
  "title: " ++ q.title ++ "\ntags:\n---\n" ++ "\n".intercalate q.lines ++ "\n===\n"

/-- A script file with its nodes. -/
structure Script where
  filename : String
  pages : List Page

def Script.write (s : Script) : OutputFile :=
  ⟨s.filename, "\n".intercalate (s.pages.map Page.write)⟩

/-- Nodes with the tags numbered after `n`. -/
def pages (n : Nat) : List Node → List Page
  | [] => []
  | node :: nodes =>
    ⟨node.title, (writeLines n node.body).1⟩ :: pages (writeLines n node.body).2 nodes

/-- Files with the tags numbered after `n`. -/
def tagged (n : Nat) : List File → List Script
  | [] => []
  | f :: fs => ⟨f.filename, pages n f.nodes⟩ :: tagged (writeNodes n f.nodes).2 fs

/-- The scripts of a project; above the threshold every flow has one of its own. -/
def scripts (threshold : Nat) (p : Project) : List Script :=
  tagged 0 (scriptFiles threshold p (FlowNames.ofFlows digitGuard p.flows)).value

/-- The file of metadata. -/
def metadataFile (o : Options) (p : Project) : OutputFile :=
  let names := FlowNames.ofFlows digitGuard p.flows
  let warnings := (allNodes p.sheets names [] p.flows).notes.warnings
  ⟨"metadata.json", (scriptMetadata metadataStyle p names warnings).text o.prettyPrint⟩

/-- The line declares a variable. -/
def isDeclaration (line : String) : Bool :=
  "<<declare ".toList.isPrefixOf line.toList

/-- The node without its declarations. -/
def Page.undeclared (q : Page) : Page :=
  ⟨q.title, q.lines.filter (!isDeclaration ·)⟩

/-- The declarations of nodes. -/
def declared (qs : List Page) : List String :=
  qs.flatMap fun q => q.lines.filter isDeclaration

/-- Without declarations the nodes are those of a story, after the node that held them perhaps. -/
def Tells (qs story : List Page) : Prop :=
  qs.map Page.undeclared = story ∨
    qs.map Page.undeclared = ⟨declarationsTitle, []⟩ :: story

/-- Scripts that tell the same story and declare the same variables. -/
structure SameStory (ss ts : List Script) : Prop where
  nodes : ∃ story, Tells (ss.flatMap Script.pages) story ∧ Tells (ts.flatMap Script.pages) story
  declarations : declared (ss.flatMap Script.pages) = declared (ts.flatMap Script.pages)

section Tags

variable {n : Nat}

theorem writeNodes_fst (n : Nat) (nodes : List Node) :
    (writeNodes n nodes).1 = (pages n nodes).map Page.write := by
  induction nodes generalizing n with
  | nil => rfl
  | cons node nodes ih => exact congrArg (_ :: ·) (ih _)

theorem writeFiles_eq (n : Nat) (files : List File) :
    writeFiles n files = (tagged n files).map Script.write := by
  induction files generalizing n with
  | nil => rfl
  | cons f fs ih => rw [writeFiles, tagged, List.map_cons, ih, writeNodes_fst, Script.write]

theorem pages_append (n : Nat) (ns ms : List Node) :
    pages n (ns ++ ms) = pages n ns ++ pages (writeNodes n ns).2 ms := by
  induction ns generalizing n with
  | nil => rfl
  | cons node ns ih => exact congrArg (_ :: ·) (ih _)

/-- Tags are numbered through all files as if their nodes stood in one. -/
theorem pages_tagged (n : Nat) (files : List File) :
    (tagged n files).flatMap Script.pages = pages n (fileNodes files) := by
  induction files generalizing n with
  | nil => rfl
  | cons f fs ih =>
    have hnodes : fileNodes (f :: fs) = f.nodes ++ fileNodes fs := List.flatMap_cons
    rw [tagged, List.flatMap_cons, ih, hnodes, pages_append]

/-- Declarations carry no tags, so the lines behind them keep their numbers. -/
theorem writeLines_declarations (n : Nat) (vars : List Variable) (ls : List Line) :
    writeLines n (declarations vars ++ ls) =
      (declarationLines vars ++ (writeLines n ls).1, (writeLines n ls).2) := by
  induction vars with
  | nil => rfl
  | cons v vars ih =>
    change writeLines n (⟨0, .declaration (variableRef v) v.declaration⟩ ::
      (declarations vars ++ ls)) = _
    rw [writeLines]
    simp only [Line.isTagged, Bool.false_eq_true, if_false, ih]
    rfl

end Tags

section Stories

variable {sheets : List Sheet} {names : FlowNames} {p : Project}

theorem isDeclaration_declarationLines (vars : List Variable) :
    ∀ l ∈ declarationLines vars, isDeclaration l = true := by
  intro l hl
  rw [declarationLines, declarations, List.map_map] at hl
  obtain ⟨v, -, rfl⟩ := List.mem_map.mp hl
  simp [isDeclaration, Line.write, Content.write, indentation, String.append_assoc]

theorem filter_declarationLines (vars : List Variable) (ls : List String) :
    (declarationLines vars ++ ls).filter isDeclaration =
      declarationLines vars ++ ls.filter isDeclaration := by
  rw [List.filter_append, List.filter_eq_self.mpr (isDeclaration_declarationLines vars)]

theorem undeclared_declarationLines (title : String) (vars : List Variable) (ls : List String) :
    Page.undeclared ⟨title, declarationLines vars ++ ls⟩ = Page.undeclared ⟨title, ls⟩ := by
  have hd : (declarationLines vars).filter (!isDeclaration ·) = [] := by
    rw [List.filter_eq_nil_iff]
    intro l hl
    simp [isDeclaration_declarationLines vars l hl]
  simp only [Page.undeclared, List.filter_append, hd, List.nil_append]

/-- A preamble stands in front of the first node of the first flow. -/
theorem allNodes_cons (sheets : List Sheet) (names : FlowNames) (f : Flow) (fs : List Flow) :
    ∃ title body rest, ∀ preamble,
      (allNodes sheets names preamble (f :: fs)).value.flatMap Prod.snd =
        ⟨title, preamble ++ body⟩ :: rest :=
  ⟨_, _, _, fun _ => rfl⟩

theorem notes_allNodes (preamble : List Line) (fs : List Flow) :
    (allNodes sheets names preamble fs).notes = (allNodes sheets names [] fs).notes := by
  cases fs <;> rfl

/-- Declarations with a node of their own. -/
theorem tells_apart (vars : List Variable) (ns : List Node) :
    let qs := pages 0 (declarationNodes vars ++ ns)
    Tells qs ((pages 0 ns).map Page.undeclared) ∧
      declared qs = declarationLines vars ++ declared (pages 0 ns) := by
  intro qs
  by_cases hv : vars = []
  · subst hv
    exact ⟨Or.inl rfl, rfl⟩
  · have hqs : qs = ⟨declarationsTitle, declarationLines vars ++ []⟩ :: pages 0 ns := by
      have hw := writeLines_declarations 0 vars []
      rw [List.append_nil] at hw
      simp only [qs, declarationNodes, List.isEmpty_iff, hv, if_false, List.singleton_append, pages,
        hw, writeLines]
    rw [hqs]
    constructor
    · apply Or.inr
      rw [List.map_cons, undeclared_declarationLines]
      rfl
    · rw [declared, List.flatMap_cons, filter_declarationLines, List.append_assoc]
      rfl

/-- Declarations in front of the first node. -/
theorem tells_inside (vars : List Variable) (title : String) (body : List Line)
    (rest : List Node) :
    let qs := pages 0 (⟨title, declarations vars ++ body⟩ :: rest)
    let rs := pages 0 (⟨title, body⟩ :: rest)
    Tells qs (rs.map Page.undeclared) ∧ declared qs = declarationLines vars ++ declared rs := by
  intro qs rs
  have hqs : qs = ⟨title, declarationLines vars ++ (writeLines 0 body).1⟩ ::
      pages (writeLines 0 body).2 rest := by
    simp only [qs, pages, writeLines_declarations]
  rw [hqs]
  constructor
  · apply Or.inl
    rw [List.map_cons, undeclared_declarationLines]
    rfl
  · rw [declared, List.flatMap_cons, filter_declarationLines, List.append_assoc]
    rfl

/-- Wherever the declarations stand, scripts tell the story of the flows, and declare besides it
the variables of the sheets. -/
theorem scripts_tell (threshold : Nat) (p : Project) :
    let names := FlowNames.ofFlows digitGuard p.flows
    let story := pages 0 ((allNodes p.sheets names [] p.flows).value.flatMap Prod.snd)
    let qs := (scripts threshold p).flatMap Script.pages
    Tells qs (story.map Page.undeclared) ∧
      declared qs = declarationLines (variablesOf p.sheets) ++ declared story := by
  intro names story qs
  have hqs : qs = pages 0 (fileNodes (scriptFiles threshold p names).value) := pages_tagged 0 _
  rw [hqs, scriptFiles]
  split
  · rw [fileNodes_manyFiles]
    exact tells_apart _ _
  · rw [fileNodes_singleFile]
    cases hf : p.flows with
    | nil =>
      have hstory : story = [] := by
        simp only [story, hf]
        rfl
      have h := tells_apart (variablesOf p.sheets) []
      rw [List.append_nil] at h
      rw [hstory]
      exact h
    | cons f fs =>
      obtain ⟨title, body, rest, hn⟩ := allNodes_cons p.sheets names f fs
      have hstory : story = pages 0 (⟨title, body⟩ :: rest) := by
        simp only [story, hf, hn, List.nil_append]
      rw [hstory, hn, List.isEmpty_cons, if_neg Bool.false_ne_true, List.append_nil]
      exact tells_inside _ _ _ _

theorem sameStory_scripts (m n : Nat) (p : Project) : SameStory (scripts m p) (scripts n p) where
  nodes := ⟨_, (scripts_tell m p).1, (scripts_tell n p).1⟩
  declarations := (scripts_tell m p).2.trans (scripts_tell n p).2.symm

theorem notes_scriptFiles (threshold : Nat) (p : Project) (names : FlowNames) :
    (scriptFiles threshold p names).notes =
      (allNodes p.sheets names [] p.flows).notes := by
  unfold scriptFiles
  split
  · exact Notes.append_none _
  · rw [← notes_allNodes (declarations (variablesOf p.sheets))]
    exact Notes.append_none _

/-- Of the settings, only the threshold counts, and only for the scripts. -/
theorem output_value (s : Settings) (o : Options) (p : Project) :
    (output s o p).value =
      .files ((scripts s.multiFileThreshold p).map Script.write ++ [metadataFile o p]) := by
  rw [scripts, ← writeFiles_eq, metadataFile, ← notes_scriptFiles s.multiFileThreshold]
  rfl

end Stories

end Yarn

/-- Any two thresholds give scripts that tell the same story, with the same metadata and the same
notes. -/
theorem Project.modes_agree (s t : Settings) (o : Options) (p : Project) :
    ((Ink.output s o p).value = .files
        ((Ink.scripts s.multiFileThreshold p).map Ink.Script.write ++ [Ink.metadataFile o p]) ∧
      (Ink.output t o p).value = .files
        ((Ink.scripts t.multiFileThreshold p).map Ink.Script.write ++ [Ink.metadataFile o p]) ∧
      Ink.SameStory (Ink.scripts s.multiFileThreshold p) (Ink.scripts t.multiFileThreshold p) ∧
      (Ink.output s o p).notes = (Ink.output t o p).notes) ∧
    ((Yarn.output s o p).value = .files
        ((Yarn.scripts s.multiFileThreshold p).map Yarn.Script.write ++ [Yarn.metadataFile o p]) ∧
      (Yarn.output t o p).value = .files
        ((Yarn.scripts t.multiFileThreshold p).map Yarn.Script.write ++ [Yarn.metadataFile o p]) ∧
      Yarn.SameStory (Yarn.scripts s.multiFileThreshold p) (Yarn.scripts t.multiFileThreshold p) ∧
      (Yarn.output s o p).notes = (Yarn.output t o p).notes) := by
  constructor
  · exact ⟨Ink.output_value s o p, Ink.output_value t o p, Ink.sameStory_scripts _ _ p, rfl⟩
  · have hnotes : (Yarn.output s o p).notes = (Yarn.output t o p).notes :=
      (Yarn.notes_scriptFiles _ p _).trans (Yarn.notes_scriptFiles _ p _).symm
    exact ⟨Yarn.output_value s o p, Yarn.output_value t o p, Yarn.sameStory_scripts _ _ p, hnotes⟩

end StoryFlow
