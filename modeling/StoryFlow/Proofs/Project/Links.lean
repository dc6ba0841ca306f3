import StoryFlow.Proofs.Articy.Links
import StoryFlow.Proofs.Godot.Links

/-! # Links inside of a document

Neither Godot nor articy documents leave out a connection whose target they do not write. Their
links stay inside of a flow exactly when the connections do.
-/

namespace StoryFlow

namespace Project

/-- A Godot document links to its own nodes alone when every connection that it shows leads to a
node, an articy document when every connection joins nodes of known kinds. -/
theorem links_closed_iff (o : Options) (p : Project)
    (hd : ∀ f ∈ p.flows, (f.nodes.map Node.id).Nodup)
    (hlost : ∀ f ∈ p.flows, ∀ n ∈ f.nodes, n.id ≠ Fields.lostKey) :
    ((Godot.output o p).value = .text ((Godot.document o p).value.text o.prettyPrint) ∧
      Godot.flowsOf (Godot.document o p).value =
        Fields.table (p.flows.map fun f => (Godot.flowKey p f, (Godot.flow p.sheets f).value)) ∧
      ∀ f ∈ p.flows, Godot.Closed (Godot.flow p.sheets f).value ↔
        ∀ c ∈ f.connections, Godot.Shows f c → c.target ∈ f.nodes.map Node.id) ∧
    ((Articy.output o p).value = .text (Xml.document (Articy.written o p)) ∧
      Articy.fragments (Articy.written o p) = p.flows.map (Articy.fragmentOf o p) ∧
      ∀ f ∈ p.flows, (Articy.JoinsKnown f → Articy.Closed (Articy.fragmentOf o p f)) ∧
        (Set.InjOn Guid.ofKey {key | key ∈ Articy.graphKeys f} →
          Articy.Closed (Articy.fragmentOf o p f) → Articy.JoinsKnown f)) := by
  refine ⟨⟨rfl, Godot.flowsOf_document o p, fun f hf => ?_⟩,
    rfl, Articy.fragments_written o p, fun f _ => ⟨fun h => ?_, fun hdigest h => ?_⟩⟩
  · exact Godot.closed_flow_iff p.sheets (hd f hf) (hlost f hf)
  · rw [Articy.closed_fragmentOf]
    exact Articy.closed_flow_of_joinsKnown p.sheets h
  · rw [Articy.closed_fragmentOf] at h
    exact Articy.joinsKnown_of_closed_flow hdigest h

/-- A pier with a way from its entry to a node, and a node of no known kind. -/
def pier (target : String) : Project where
  info := ⟨"1", "Pier", none, none, []⟩
  sheets := []
  flows := [⟨"1", some "pier", "Pier", none, none, true, [],
    [.ofStored "start" "entry" [] none none, .ofStored "odd" "mystery" [] none none,
      .ofStored "end" "exit" [] none none],
    [⟨none, "start", "output", target, none, none⟩]⟩]
  scenes := []
  screenplays := []
  localization := .empty
  assets := []

theorem pier_links_closed : let p := pier "end"
    (∀ f ∈ p.flows, (f.nodes.map Node.id).Nodup) ∧
      (∀ f ∈ p.flows, ∀ n ∈ f.nodes, n.id ≠ Fields.lostKey) ∧
      ∀ o : Options, ∀ f ∈ p.flows, Set.InjOn Guid.ofKey {key | key ∈ Articy.graphKeys f} ∧
        Godot.Closed (Godot.flow p.sheets f).value ∧ Articy.Closed (Articy.fragmentOf o p f) ∧
        Articy.JoinsKnown f := by
  intro p
  have hd : ∀ f ∈ p.flows, (f.nodes.map Node.id).Nodup := by decide
  have hlost : ∀ f ∈ p.flows, ∀ n ∈ f.nodes, n.id ≠ Fields.lostKey := by decide
  have hdigest : ∀ f ∈ p.flows, ((Articy.graphKeys f).dedup.map Guid.ofKey).Nodup := by
    decide +kernel
  have htargets : ∀ f ∈ p.flows, ∀ c ∈ f.connections, c.target ∈ f.nodes.map Node.id := by decide
  have hfragments : ∀ f ∈ p.flows, Articy.Closed (Articy.flow p.sheets f).value := by
    decide +kernel
  refine ⟨hd, hlost, fun o f hf => ?_⟩
  obtain ⟨⟨-, -, hgodot⟩, -, -, harticy⟩ := links_closed_iff o p hd hlost
  have hinj := Articy.injOn_keys (hdigest f hf)
  have hclosed := (Articy.closed_fragmentOf o p f).mpr (hfragments f hf)
  exact ⟨hinj, (hgodot f hf).mpr fun c hc _ => htargets f hf c hc, hclosed,
    (harticy f hf).2 hinj hclosed⟩

/-- A connection to a node that is not there is a link of both documents, one to a node of no known
kind is a link of the articy document, which leaves the node out. -/
theorem pier_links_dangling :
    (∀ target ∈ ["gone", "odd"], ∀ f ∈ (pier target).flows,
      (f.nodes.map Node.id).Nodup ∧ (∀ n ∈ f.nodes, n.id ≠ Fields.lostKey) ∧
        ∀ o : Options, ¬ Articy.Closed (Articy.fragmentOf o (pier target) f)) ∧
      ∀ f ∈ (pier "gone").flows, ¬ Godot.Closed (Godot.flow [] f).value := by
  have hfragments : ∀ target ∈ ["gone", "odd"], ∀ f ∈ (pier target).flows,
      (f.nodes.map Node.id).Nodup ∧ (∀ n ∈ f.nodes, n.id ≠ Fields.lostKey) ∧
        ¬ Articy.Closed (Articy.flow [] f).value := by
    decide +kernel
  refine ⟨fun target ht f hf => ?_, by decide +kernel⟩
  obtain ⟨hd, hlost, hopen⟩ := hfragments target ht f hf
  exact ⟨hd, hlost, fun o => (Articy.closed_fragmentOf o (pier target) f).not.mpr hopen⟩

end Project

end StoryFlow
