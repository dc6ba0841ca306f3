import Mathlib.Data.List.Chain
import Mathlib.Data.List.Dedup
import StoryFlow.Proofs.Graph.Targets

/-! # Bounds of the traversal

A call of the traversal makes further calls on its own path or on a longer one, whose nodes differ
and are known. So calls nest no deeper than there are nodes, no chain of calls goes on forever, and
the sections are written in as many rounds as there are hubs and bodies. What a run writes is decided
by where it starts, so every larger bound gives the same script.
-/

namespace StoryFlow

namespace Linearize

variable {index : Index} {path : List String} {task : Task} {p q r p' q' : Progress}
  {ss ts : List Step} {pending : Pending} {s t : Section} {sections sections' : List Section}

section Determinism

/-- A task writes one list of steps and leaves one progress. -/
theorem Run.det (h : Run index path task p ss q) (h' : Run index path task p ts r) :
    ss = ts ∧ q = r := by
  induction h generalizing ts r with
  | missing hn =>
    cases h' with
    | missing => exact ⟨rfl, rfl⟩
    | onPath hn' | shared hn' | entered hn' => simp [hn] at hn'
  | onPath hn hi =>
    cases h' with
    | missing hn' => simp [hn] at hn'
    | onPath hn' =>
      obtain rfl := Option.some.inj (hn.symm.trans hn')
      exact ⟨rfl, rfl⟩
    | shared _ hi' | entered _ hi' => exact absurd hi hi'
  | shared hn hi hb he =>
    cases h' with
    | missing hn' => simp [hn] at hn'
    | onPath _ hi' => exact absurd hi' hi
    | shared hn' =>
      obtain rfl := Option.some.inj (hn.symm.trans hn')
      exact ⟨rfl, rfl⟩
    | entered hn' _ he' =>
      obtain rfl := Option.some.inj (hn.symm.trans hn')
      exact absurd he (he' hb)
  | entered hn hi he _ ih =>
    cases h' with
    | missing hn' => simp [hn] at hn'
    | onPath _ hi' => exact absurd hi' hi
    | shared hn' _ hb he' =>
      obtain rfl := Option.some.inj (hn.symm.trans hn')
      exact absurd he' (he hb)
    | entered hn' _ _ h' =>
      obtain rfl := Option.some.inj (hn.symm.trans hn')
      exact ih h'
  | noEdge | noArm =>
    cases h'
    exact ⟨rfl, rfl⟩
  | edge _ _ ih ih' =>
    cases h' with
    | edge hfirst hrest =>
      obtain ⟨rfl, rfl⟩ := ih hfirst
      obtain ⟨rfl, rfl⟩ := ih' hrest
      exact ⟨rfl, rfl⟩
  | arm _ _ ih ih' =>
    cases h' with
    | arm hfirst hrest =>
      obtain ⟨rfl, rfl⟩ := ih hfirst
      obtain ⟨rfl, rfl⟩ := ih' hrest
      exact ⟨rfl, rfl⟩
  | expand _ ih =>
    cases h' with
    | expand h' =>
      obtain ⟨rfl, rfl⟩ := ih h'
      exact ⟨rfl, rfl⟩

theorem SectionRun.det (h : SectionRun index pending p s q)
    (h' : SectionRun index pending p t r) : s = t ∧ q = r := by
  cases h with
  | hub h =>
    cases h' with
    | hub h' =>
      obtain ⟨rfl, rfl⟩ := h.det h'
      exact ⟨rfl, rfl⟩
  | join h =>
    cases h' with
    | join h' =>
      obtain ⟨rfl, rfl⟩ := h.det h'
      exact ⟨rfl, rfl⟩

theorem Drain.det (h : Drain index p sections q) (h' : Drain index p sections' r) :
    sections = sections' ∧ q = r := by
  induction h generalizing sections' r with
  | empty hq =>
    cases h' with
    | empty => exact ⟨rfl, rfl⟩
    | next hq' => simp [hq] at hq'
  | next hq h _ ih =>
    cases h' with
    | empty hq' => simp [hq] at hq'
    | next hq' h' hd' =>
      obtain ⟨rfl, rfl⟩ := List.cons.inj (hq.symm.trans hq')
      obtain ⟨rfl, rfl⟩ := h.det h'
      obtain ⟨rfl, rfl⟩ := ih hd'
      exact ⟨rfl, rfl⟩

theorem ScriptRun.det {entry : Node} {script script' : LinearScript}
    (h : ScriptRun index entry script p q) (h' : ScriptRun index entry script' p' q') :
    script = script' ∧ q = q' := by
  obtain ⟨hmain, rfl⟩ := h.main.det h'.main
  obtain ⟨hsections, rfl⟩ := h.drain.det h'.drain
  cases script
  cases script'
  exact ⟨LinearScript.mk.injEq .. ▸ ⟨hmain, hsections⟩, rfl⟩

/-- All bounds that suffice give one script. -/
theorem bounded_eq (hc : index.Coherent) {depth rounds : Nat} (hd : index.nodes.length < depth)
    (hr : index.hubs.length + index.bodies.length ≤ rounds) :
    bounded index depth rounds = index.linearize := by
  cases he : index.entry with
  | none => simp [Index.linearize, bounded, he]
  | some entry =>
    obtain ⟨p, q, h⟩ := scriptRun_bounded hc he hd hr
    obtain ⟨p', q', h'⟩ := scriptRun_linearize hc he
    exact (h.det h').1

end Determinism

section Calls

/-- A call of the traversal: a task on a path, from a progress. -/
structure Call where
  path : List String
  task : Task
  progress : Progress

def Call.isVisit (c : Call) : Bool :=
  match c.task with
  | .visit _ => true
  | _ => false

/-- A call makes another before it is done. What a call finds was left by those before it. -/
inductive Calls (index : Index) : Call → Call → Prop where

  | enter {path id node p} : index.node? id = some node → id ∉ path →
      (node.hasBody → id ∉ p.expanded) →
      Calls index ⟨path, .visit id, p⟩ ⟨id :: path, .expand node, enter node p⟩

  | plan {path node p} : Calls index ⟨path, .expand node, p⟩
      ⟨path, .arms (plan index node).arms, ask (plan index node).hub p⟩

  | arm {path a as p} : Calls index ⟨path, .arms (a :: as), p⟩ ⟨path, .follow a.edges, p⟩

  | nextArm {path a as p ss q} : Run index path (.follow a.edges) p ss q →
      Calls index ⟨path, .arms (a :: as), p⟩ ⟨path, .arms as, q⟩

  | edge {path e es p} : Calls index ⟨path, .follow (e :: es), p⟩ ⟨path, .visit e.target, p⟩

  | nextEdge {path e es p ss q} : Run index path (.visit e.target) p ss q →
      Calls index ⟨path, .follow (e :: es), p⟩ ⟨path, .follow es, q⟩

/-- The calls that no other call makes: one for the script and one for each section. -/
inductive Begins (index : Index) : Call → Prop where

  | main {entry} : index.entry = some entry → Begins index ⟨[], .visit entry.id, start index⟩

  | hub {id h p} : index.hub? id = some h → Begins index ⟨[id], .follow (index.outgoing id), p⟩

  | join {node p} : index.node? node.id = some node → Begins index ⟨[node.id], .expand node, p⟩

variable {c d : Call} {cs : List Call}

theorem Begins.isPath (hc : index.Coherent) (h : Begins index c) : IsPath index c.path := by
  cases h with
  | main => exact .nil
  | hub h =>
    obtain ⟨node, hn⟩ := hc.node_of_hub h
    exact .singleton hn
  | join hn => exact .singleton hn

/-- A path is that of the call that makes it, or longer by a node when that is a visit. -/
theorem Calls.path_eq (h : Calls index c d) :
    (c.isVisit ∧ ∃ id node, index.node? id = some node ∧ id ∉ c.path ∧ d.path = id :: c.path) ∨
      ¬ c.isVisit ∧ d.path = c.path := by
  cases h with
  | enter hn hi => exact Or.inl ⟨rfl, _, _, hn, hi, rfl⟩
  | plan | arm | nextArm | edge | nextEdge => exact Or.inr ⟨by simp [Call.isVisit], rfl⟩

theorem Calls.isPath (h : Calls index c d) (hp : IsPath index c.path) : IsPath index d.path := by
  rcases h.path_eq with ⟨-, id, node, hn, hi, he⟩ | ⟨-, he⟩
  · rw [he]
    exact hp.cons hn hi
  · rwa [he]

theorem Calls.path_suffix (h : Calls index c d) : c.path <:+ d.path := by
  rcases h.path_eq with ⟨-, id, _, _, _, he⟩ | ⟨-, he⟩
  · exact he ▸ List.suffix_cons id c.path
  · exact he ▸ List.suffix_rfl

/-- The path of every call in a chain is one of different nodes. -/
theorem isPath_of_chain (h : (c :: cs).IsChain (Calls index)) (hp : IsPath index c.path) :
    ∀ d ∈ c :: cs, IsPath index d.path := by
  induction cs generalizing c with
  | nil => exact List.forall_mem_singleton.mpr hp
  | cons d cs ih =>
    obtain ⟨hcd, hcs⟩ := List.isChain_cons_cons.mp h
    exact List.forall_mem_cons.mpr ⟨hp, ih hcs (hcd.isPath hp)⟩

/-- Every visit of a chain leaves a longer path to the calls behind it. -/
theorem path_lt_of_chain (h : (c :: cs).IsChain (Calls index)) :
    ∀ d ∈ cs, c.path <:+ d.path ∧ (c.isVisit → c.path.length < d.path.length) := by
  induction cs generalizing c with
  | nil => simp
  | cons e cs ih =>
    obtain ⟨hce, hcs⟩ := List.isChain_cons_cons.mp h
    have hstep : c.isVisit → c.path.length < e.path.length := by
      intro hv
      rcases hce.path_eq with ⟨-, _, _, _, _, he⟩ | ⟨hn, -⟩
      · simp [he]
      · exact absurd hv hn
    refine List.forall_mem_cons.mpr ⟨⟨hce.path_suffix, hstep⟩, fun d hd => ?_⟩
    obtain ⟨hsuffix, -⟩ := ih hcs d hd
    exact ⟨hce.path_suffix.trans hsuffix, fun hv => (hstep hv).trans_le hsuffix.length_le⟩

/-- Paths grow along a chain, by a node or more from a visit on. -/
theorem pairwise_path_of_chain (h : (c :: cs).IsChain (Calls index)) :
    (c :: cs).Pairwise fun a b =>
      a.path <:+ b.path ∧ (a.isVisit → a.path.length < b.path.length) := by
  induction cs generalizing c with
  | nil => exact List.pairwise_singleton _ _
  | cons d cs ih =>
    have hcs := (List.isChain_cons_cons.mp h).2
    exact List.pairwise_cons.mpr ⟨path_lt_of_chain h, ih hcs⟩

/-- Visits nest as deep as nodes are left for the path, and one deeper. -/
theorem countP_isVisit_le (h : (c :: cs).IsChain (Calls index)) (hp : IsPath index c.path) :
    (c :: cs).countP Call.isVisit + c.path.length ≤ index.nodes.length + 1 := by
  induction cs generalizing c with
  | nil =>
    have hl := hp.length_le
    have hone := List.countP_le_length (p := Call.isVisit) (l := [c])
    rw [List.length_singleton] at hone
    omega
  | cons d cs ih =>
    obtain ⟨hcd, hcs⟩ := List.isChain_cons_cons.mp h
    have hrest := ih hcs (hcd.isPath hp)
    rw [List.countP_cons]
    rcases hcd.path_eq with ⟨hv, _, _, _, _, he⟩ | ⟨hv, he⟩
    · rw [he, List.length_cons] at hrest
      rw [if_pos hv]
      omega
    · rw [he] at hrest
      rw [if_neg hv]
      omega

theorem acc_follow (h : ∀ id p, Acc (flip (Calls index)) ⟨path, .visit id, p⟩) (es : List Edge)
    (p : Progress) : Acc (flip (Calls index)) ⟨path, .follow es, p⟩ := by
  induction es generalizing p with
  | nil => exact ⟨_, fun d hd => nomatch hd⟩
  | cons e es ih =>
    refine ⟨_, fun d hd => ?_⟩
    cases hd with
    | edge => exact h e.target p
    | nextEdge => exact ih _

theorem acc_arms (h : ∀ id p, Acc (flip (Calls index)) ⟨path, .visit id, p⟩) (as : List Arm)
    (p : Progress) : Acc (flip (Calls index)) ⟨path, .arms as, p⟩ := by
  induction as generalizing p with
  | nil => exact ⟨_, fun d hd => nomatch hd⟩
  | cons a as ih =>
    refine ⟨_, fun d hd => ?_⟩
    cases hd with
    | arm => exact acc_follow h a.edges p
    | nextArm => exact ih _

theorem acc_expand (h : ∀ id p, Acc (flip (Calls index)) ⟨path, .visit id, p⟩) (node : Node)
    (p : Progress) : Acc (flip (Calls index)) ⟨path, .expand node, p⟩ := by
  refine ⟨_, fun d hd => ?_⟩
  cases hd
  exact acc_arms h _ _

theorem acc_visit (hp : IsPath index path) (id : String) (p : Progress) :
    Acc (flip (Calls index)) ⟨path, .visit id, p⟩ := by
  -- the induction is on the nodes that are off the path
  obtain ⟨n, hn⟩ : ∃ n, n = index.nodes.length - path.length := ⟨_, rfl⟩
  induction n using Nat.strong_induction_on generalizing path id p with
  | _ n ih =>
    refine ⟨_, fun d hd => ?_⟩
    cases hd with
    | enter hnode hi =>
      have hp' := hp.cons hnode hi
      have hl := hp'.length_le
      rw [List.length_cons] at hl
      refine acc_expand (fun id' p' => ih _ ?_ hp' id' p' rfl) _ _
      rw [List.length_cons]
      omega

/-- No chain of calls goes on forever. -/
theorem Begins.acc (hc : index.Coherent) (h : Begins index c) : Acc (flip (Calls index)) c := by
  have hp := h.isPath hc
  cases h with
  | main => exact acc_visit hp _ _
  | hub => exact acc_follow (acc_visit hp) _ _
  | join => exact acc_expand (acc_visit hp) _ _

end Calls

section Path

/-- Writes steps and moves on the progress and the path, which all calls share. -/
abbrev Trek := Progress × List String → List Step × Progress × List String

def Trek.follow (visit : String → Trek) : List Edge → Trek
  | [], a => ([], a)
  | e :: es, a =>
    let first := visit e.target a
    let rest := follow visit es first.2
    (first.1 ++ rest.1, rest.2)

def Trek.arms (visit : String → Trek) : List Arm → Trek
  | [], a => ([], a)
  | arm :: as, a =>
    let body := follow visit arm.edges a
    let rest := arms visit as body.2
    (arm.heads ++ (body.1 ++ rest.1), rest.2)

/-- Adds a node to the path, writes it out, and takes it off the path. -/
def Trek.expand (index : Index) (visit : String → Trek) (node : Node) : Trek
  | (p, path) =>
    let r := arms visit (plan index node).arms (ask (plan index node).hub p, path.insert node.id)
    ((plan index node).opening ++ (r.1 ++ (plan index node).closing), r.2.1, r.2.2.erase node.id)

def Trek.visit (index : Index) : Nat → String → Trek
  | 0, _, a => ([], a)
  | depth + 1, id, (p, path) =>
    match index.node? id with
    | none => ([], p, path)
    | some node =>
      if id ∈ path then (closing node, p, path)
      else if node.hasBody ∧ id ∈ p.expanded then
        ([.divert (p.addJoin node).1], (p.addJoin node).2, path)
      else expand index (visit index depth) node (enter node p, path)

/-- Writes a section from a path of its own on. -/
def Trek.section (index : Index) (depth : Nat) (pending : Pending) (p : Progress) :
    List Step × Progress × List String :=
  match pending with
  | .hub id _ => follow (visit index depth) (index.outgoing id) (p, [id])
  | .join node _ => expand index (visit index depth) node (p, [])

variable {visits : String → Emit} {treks : String → Trek}

theorem Trek.follow_eq
    (h : ∀ id p, treks id (p, path) = ((visits id p).1, (visits id p).2, path))
    (es : List Edge) (p : Progress) : Trek.follow treks es (p, path) =
      ((Linearize.follow visits es p).1, (Linearize.follow visits es p).2, path) := by
  induction es generalizing p with
  | nil => rfl
  | cons e es ih => simp only [Trek.follow, Linearize.follow, h, ih]

theorem Trek.arms_eq
    (h : ∀ id p, treks id (p, path) = ((visits id p).1, (visits id p).2, path))
    (as : List Arm) (p : Progress) : Trek.arms treks as (p, path) =
      ((Linearize.arms visits as p).1, (Linearize.arms visits as p).2, path) := by
  induction as generalizing p with
  | nil => rfl
  | cons a as ih => simp only [Trek.arms, Linearize.arms, Trek.follow_eq h, ih]

/-- A node that is off the path is off it again once it was written out. -/
theorem Trek.expand_eq {node : Node} (hi : node.id ∉ path)
    (h : ∀ id p, treks id (p, node.id :: path) =
      ((visits id p).1, (visits id p).2, node.id :: path)) (p : Progress) :
    Trek.expand index treks node (p, path) =
      ((Linearize.expand index visits node p).1, (Linearize.expand index visits node p).2,
        path) := by
  rw [Trek.expand, List.insert_of_not_mem hi, Trek.arms_eq h, Linearize.expand_eq]
  simp only [List.erase_cons_head]

/-- The path is left as it was found, and the calls write what they write on paths of their own. -/
theorem Trek.visit_eq (hc : index.Coherent) (depth : Nat) (path : List String) (id : String)
    (p : Progress) : Trek.visit index depth id (p, path) =
      ((Linearize.visit index depth path id p).1, (Linearize.visit index depth path id p).2,
        path) := by
  induction depth generalizing path id p with
  | zero => rfl
  | succ depth ih =>
    rw [Trek.visit, Linearize.visit]
    cases hn : index.node? id with
    | none => rfl
    | some node =>
      obtain rfl := hc.node_id hn
      by_cases hi : node.id ∈ path
      · simp [hi, closing]
      · have hexpand : ∀ p, Trek.expand index (Trek.visit index depth) node (p, path) =
            ((Linearize.expand index (Linearize.visit index depth (node.id :: path)) node p).1,
              (Linearize.expand index (Linearize.visit index depth (node.id :: path)) node p).2,
              path) :=
          Trek.expand_eq hi fun id p => ih (node.id :: path) id p
        by_cases hb : node.hasBody
        · by_cases he : node.id ∈ p.expanded
          · simp [hi, hb, he]
          · simp [hi, hb, he, enter, hexpand]
        · simp [hi, hb, enter, hexpand]

theorem Trek.section_eq (hc : index.Coherent) (depth : Nat) (pending : Pending) (p : Progress) :
    Trek.section index depth pending p =
      ((writeSection index depth pending p).1.steps, (writeSection index depth pending p).2,
        match pending with | .hub id _ => [id] | .join _ _ => []) := by
  cases pending with
  | hub id h => exact Trek.follow_eq (Trek.visit_eq hc depth [id]) _ p
  | join node label =>
    exact Trek.expand_eq (by simp) (fun id p => Trek.visit_eq hc depth [node.id] id p) p

end Path

/-- The sections are as many as were asked for. -/
theorem ScriptRun.length_sections_le (hc : index.Coherent) {entry : Node} {script : LinearScript}
    (h : ScriptRun index entry script p q) :
    script.sections.length ≤ index.hubs.length + index.bodies.length := by
  have hkeys := (h.perm_askedKeys hc).length_eq
  have hasked := (h.sound hc).asked_le
  simp only [askedKeys, List.length_append, List.length_map] at hkeys
  rw [asked] at hasked
  omega

end Linearize

namespace Flow

open Linearize

/-- The index holds a node for each id. -/
theorem length_index_nodes (f : Flow) :
    f.index.nodes.length = (f.nodes.map Node.id).dedup.length := by
  have hperm : (f.index.nodes.map Prod.fst).Perm (f.nodes.map Node.id).dedup := by
    refine (List.perm_ext_iff_of_nodup (Assoc.nodup_keys_ofPairs _) (List.nodup_dedup _)).mpr ?_
    intro id
    rw [List.mem_dedup, ← Assoc.lookup_isSome_iff]
    constructor
    · intro h
      obtain ⟨n, hn⟩ := Option.isSome_iff_exists.mp h
      have hn : f.index.node? id = some n := hn
      obtain ⟨hn, hid⟩ := Index.mem_of_node?_ofGraph hn
      exact List.mem_map.mpr ⟨n, hn, hid⟩
    · intro h
      obtain ⟨n, hn, rfl⟩ := List.mem_map.mp h
      obtain ⟨m, hm⟩ : ∃ m, f.index.node? n.id = some m := Index.node?_ofGraph_isSome hn
      exact Option.isSome_of_eq_some hm
  simpa using hperm.length_eq

/-- Calls nest no deeper than there are nodes, on paths that grow along every chain and are left as
they were found, and no chain goes on forever. The queue of sections is empty after as many rounds as
there are hubs and bodies. So larger bounds give the same script. -/
theorem bounds_linearize (f : Flow) {depth rounds : Nat}
    (hd : (f.nodes.map Node.id).dedup.length < depth)
    (hr : f.index.hubs.length + f.index.bodies.length ≤ rounds) :
    bounded f.index depth rounds = f.linearize ∧
    (∀ c cs, Begins f.index c → (c :: cs).IsChain (Calls f.index) →
      (∀ d ∈ c :: cs, IsPath f.index d.path) ∧
      ((c :: cs).Pairwise fun a b =>
        a.path <:+ b.path ∧ (a.isVisit → a.path.length < b.path.length)) ∧
      (c :: cs).countP Call.isVisit ≤ (f.nodes.map Node.id).dedup.length + 1) ∧
    (∀ c, Begins f.index c → Acc (flip (Calls f.index)) c) ∧
    (∀ n path id p, Trek.visit f.index n id (p, path) =
      ((visit f.index n path id p).1, (visit f.index n path id p).2, path)) ∧
    (∀ n pending p,
      (Trek.section f.index n pending p).1 = (writeSection f.index n pending p).1.steps ∧
      (Trek.section f.index n pending p).2.1 = (writeSection f.index n pending p).2) ∧
    f.linearize.sections.length ≤ f.index.hubs.length + f.index.bodies.length ∧
    ∀ entry, f.index.entry = some entry →
      ∃ p q, ScriptRun f.index entry f.linearize p q ∧ q.queue = [] := by
  have hc := f.index_coherent
  rw [← length_index_nodes] at hd ⊢
  refine ⟨bounded_eq hc hd hr, fun c cs hb h => ?_, fun c hb => hb.acc hc,
    Trek.visit_eq hc, fun n pending p => ?_, ?_, fun entry he => ?_⟩
  · have hvisits := countP_isVisit_le h (hb.isPath hc)
    exact ⟨isPath_of_chain h (hb.isPath hc), pairwise_path_of_chain h, by omega⟩
  · rw [Trek.section_eq hc]
    exact ⟨rfl, rfl⟩
  · cases he : f.index.entry with
    | none => simp [f.linearize_of_no_entry he]
    | some entry =>
      obtain ⟨p, q, h⟩ := scriptRun_linearize hc he
      exact h.length_sections_le hc
  · obtain ⟨p, q, h⟩ := scriptRun_linearize hc he
    exact ⟨p, q, h, h.drain.queue_nil⟩

theorem roundTrip_bounds :
    (roundTrip.nodes.map Node.id).dedup.length = 4 ∧
      roundTrip.index.hubs.length + roundTrip.index.bodies.length = 3 ∧
      bounded roundTrip.index 5 3 = roundTrip.linearize := by
  have hnodes : (roundTrip.nodes.map Node.id).dedup.length = 4 := by
    rw [roundTrip_nodup.dedup]
    rfl
  have hrounds : roundTrip.index.hubs.length + roundTrip.index.bodies.length = 3 := by
    decide +kernel
  exact ⟨hnodes, hrounds, (bounds_linearize roundTrip (by omega) (by omega)).1⟩

end Flow

end StoryFlow
