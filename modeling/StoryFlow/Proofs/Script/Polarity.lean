import StoryFlow.Proofs.Script.Conditionals
import StoryFlow.Proofs.Text.Units

/-! # Two-way conditions

A branching may have two cases, one at the pin `true` and one at the pin `false`. Its first guard
takes the whole condition and is negated by the value of the first case, while the bodies follow
the pins. So the body of the right outcome is played exactly when value and pin of the first case
agree on whether it stands for `false`.
-/

namespace StoryFlow

/-- Does a guard hold for a host that evaluates expressions in this way? -/
def Guard.holds (host : String → Bool) : Guard → Bool
  | .ifTest expr | .elseIf expr => host expr
  | .otherwise => true

/-- What is played of the arms of a conditional: that of the first guard that holds. -/
def played {α : Type} (host : String → Bool) : List (Guard × α) → Option α
  | [] => none
  | (guard, a) :: arms => if guard.holds host then some a else played host arms

theorem played_pair {α : Type} (host : String → Bool) (expr : String) (x y : α) :
    played host [(.ifTest expr, x), (.otherwise, y)] = some (if host expr then x else y) := by
  cases h : host expr <;> simp [played, Guard.holds, h]

theorem Condition.guard?_getD (d : Dialect) (stored : Option Json) :
    (guard? d stored).value.getD d.trueLiteral = guardOrTrue d stored := by
  unfold guard? guardOrTrue
  cases compileStored d stored with
  | error e => rfl
  | ok compiled => by_cases he : compiled.value = "" <;> simp [bind, pure, guard?.given, he]

namespace Branching

/-- The pins of a branching behind their guards. -/
def arms (d : Dialect) (b : Branching) : List (Guard × String) :=
  (b.guards d).value.zip b.pins

/-- Two cases that stand for the outcomes of the whole condition, in either order. -/
structure TwoWay (b : Branching) (first second : Case) : Prop where
  outcome : b.isSwitch = false
  cases : b.cases = [first, second]
  pins : first.pin 0 = "true" ∧ second.pin 1 = "false" ∨
    first.pin 0 = "false" ∧ second.pin 1 = "true"

variable {d : Dialect} {b : Branching} {first second : Case} {host : String → Bool}

theorem TwoWay.pins_eq (h : b.TwoWay first second) :
    b.pins = [first.pin 0, second.pin 1] := by
  rw [Branching.pins, h.cases]
  rfl

theorem TwoWay.arms_eq (h : b.TwoWay first second) (d : Dialect) :
    b.arms d =
      [(.ifTest (if first.value = some "false"
        then d.negate (parenthesize (Condition.guardOrTrue d b.condition))
        else Condition.guardOrTrue d b.condition), first.pin 0),
      (.otherwise, second.pin 1)] := by
  have hguards : (b.guards d).value =
      [(b.guard d first 0).value, (b.guard d second 1).value] := by
    rw [guards, h.cases]
    rfl
  have hfirst : (b.guard d first 0).value = (b.outcomeGuard d first 0).value := by
    rw [guard, if_neg (by simp [h.outcome])]
  have hsecond : (b.guard d second 1).value = .otherwise := by
    rw [guard, if_neg (by simp [h.outcome])]
    exact if_pos (by rw [h.cases]; rfl)
  rw [arms, hguards, h.pins_eq, hfirst, hsecond, ← Condition.guard?_getD]
  rfl

/-- The arm that is played is the one at the pin of the outcome exactly when the first case stands
for `false` by its value as it does by its pin. -/
theorem TwoWay.played_iff (h : b.TwoWay first second)
    (hnegate : host (d.negate (parenthesize (Condition.guardOrTrue d b.condition))) =
      !host (Condition.guardOrTrue d b.condition)) :
    played host (b.arms d) =
        some (if host (Condition.guardOrTrue d b.condition) then "true" else "false") ↔
      (first.value = some "false" ↔ first.pin 0 = "false") := by
  rw [h.arms_eq, played_pair]
  -- A negated guard exchanges the bodies, and so do pins in the other order.
  by_cases hv : first.value = some "false"
  · rw [if_pos hv, hnegate]
    rcases h.pins with ⟨hp, hq⟩ | ⟨hp, hq⟩ <;>
      cases host (Condition.guardOrTrue d b.condition) <;> simp [hv, hp, hq]
  · rw [if_neg hv]
    rcases h.pins with ⟨hp, hq⟩ | ⟨hp, hq⟩ <;>
      cases host (Condition.guardOrTrue d b.condition) <;> simp [hv, hp, hq]

theorem TwoWay.exists_body {index : Index} {id : String} {bodies : List (List Step)}
    (h : b.TwoWay first second) (hf : List.Forall₂ (Linearize.Follows index id) b.pins bodies) :
    ∃ body : String → List Step,
      (∀ pin ∈ ["true", "false"], Linearize.Follows index id pin (body pin)) ∧
        bodies = b.pins.map body := by
  rw [h.pins_eq] at hf ⊢
  obtain ⟨ss, _, hss, hrest, rfl⟩ := List.forall₂_cons_left_iff.mp hf
  obtain ⟨ts, _, hts, hnil, rfl⟩ := List.forall₂_cons_left_iff.mp hrest
  obtain rfl := List.forall₂_nil_left_iff.mp hnil
  rcases h.pins with ⟨hp, hq⟩ | ⟨hp, hq⟩
  · rw [hp] at hss ⊢
    rw [hq] at hts ⊢
    exact ⟨fun pin => if pin = "true" then ss else ts, by simp [hss, hts], by simp⟩
  · rw [hp] at hss ⊢
    rw [hq] at hts ⊢
    exact ⟨fun pin => if pin = "false" then ss else ts, by simp [hss, hts], by simp⟩

end Branching

/-- A two-way condition in a script is written with the bodies at its two pins. The one that is
played is right exactly when the first case stands for `false` by its value as by its pin. -/
theorem Flow.two_way_polarity (f : Flow) {before after : List Step} {id : String} {b : Branching}
    {first second : Case} (hs : before ++ .conditionStart id b :: after ∈ f.linearize.bodies)
    (h : b.TwoWay first second) :
    ∃ body : String → List Step,
      (∀ pin ∈ ["true", "false"], Linearize.Follows f.index id pin (body pin)) ∧
      (∀ cx, ∃ l : Yarn.Layout, Yarn.conditional l.depth ((b.arms .yarn).map fun (guard, pin) =>
        (guard, (Yarn.linesFrom cx l.inBranch (body pin)).value)) <:+:
          (Yarn.lines cx (before ++ .conditionStart id b :: after)).value) ∧
      (∀ cx, ∃ l : Ink.Layout, Ink.conditional l.now.depth ((b.arms .ink).map fun (guard, pin) =>
        (guard, (Ink.linesFrom cx l.inBranch (body pin)).value)) <:+:
          (Ink.lines cx (before ++ .conditionStart id b :: after)).value) ∧
      ∀ d host,
        let expr := Condition.guardOrTrue d b.condition
        host (d.negate (parenthesize expr)) = !host expr →
          (played host (b.arms d) = some (if host expr then "true" else "false") ↔
            (first.value = some "false" ↔ first.pin 0 = "false")) := by
  have hb : b.cases ≠ [] := by simp [h.cases]
  obtain ⟨bodies, hfollows, hyarn, hink⟩ := f.conditionals_written hs hb
  obtain ⟨body, hbody, rfl⟩ := h.exists_body hfollows
  have harms : ∀ {α : Type} (d : Dialect) (g : List Step → α),
      (b.guards d).value.zip ((b.pins.map body).map g) =
        (b.arms d).map fun (guard, pin) => (guard, g (body pin)) := by
    intro α d g
    rw [List.map_map, List.zip_map_right]
    rfl
  simp only [harms] at hyarn hink
  exact ⟨body, hbody, hyarn, hink, fun d host hnegate => h.played_iff hnegate⟩

/-- A test of one variable. -/
def strength : Json :=
  .obj [("logic", .str "all"), ("rules", .arr [.obj [("sheet", .str "mc"),
    ("variable", .str "health"), ("operator", .str "greater_than"), ("value", .str "50")]])]

/-- A flow that asks for strength and has a line for each outcome. -/
def gate (cases : List Fields) : Flow where
  id := "1"
  shortcut := some "gate"
  name := "Gate"
  description := none
  parentId := none
  isMain := true
  settings := []
  nodes := [.ofStored "start" "entry" [] none none,
    .ofStored "check" "condition"
      [("condition", strength), ("cases", .arr (cases.map .obj))] none none,
    .ofStored "strong" "dialogue" [("text", .str "Strong")] none none,
    .ofStored "weak" "dialogue" [("text", .str "Weak")] none none]
  connections := [⟨none, "start", "output", "check", none, none⟩,
    ⟨none, "check", "true", "strong", none, none⟩, ⟨none, "check", "false", "weak", none, none⟩]

/-- How a script is run in which the variable has a value. -/
def strengthHost (d : Dialect) (health : Nat) (expr : String) : Bool :=
  let test := Condition.guardOrTrue d (some strength)
  if expr = test then 50 < health
  else if expr = d.negate (parenthesize test) then health ≤ 50
  else expr = d.trueLiteral

/-- The cases have their outcomes both as ids and as values. -/
theorem gate_keeps_polarity :
    let f := gate [[("id", .str "false"), ("value", .str "false")],
      [("id", .str "true"), ("value", .str "true")]]
    let b : Branching := ⟨some strength,
      [⟨some "false", some "false", none⟩, ⟨some "true", some "true", none⟩], false⟩
    (∃ after, [] ++ .conditionStart "check" b :: after ∈ f.linearize.bodies) ∧
      b.TwoWay ⟨some "false", some "false", none⟩ ⟨some "true", some "true", none⟩ ∧
      (∃ strong weak, Linearize.Follows f.index "check" "true" strong ∧
        Linearize.Follows f.index "check" "false" weak) ∧
      ∀ d ∈ [Dialect.yarn, .ink], ∀ health ∈ [40, 60],
        played (strengthHost d health) (b.arms d) =
          some (if strengthHost d health (Condition.guardOrTrue d b.condition) then "true"
            else "false") := by
  intro f b
  have hhead : f.linearize.main.head? = some (.conditionStart "check" b) := by
    simp only [Flow.linearize, Flow.index, Index.ofGraph, Text.sortByUnits_eq_insertionSort]
    rfl
  obtain ⟨after, hmain⟩ := List.head?_eq_some_iff.mp hhead
  have hs : [] ++ .conditionStart "check" b :: after ∈ f.linearize.bodies :=
    hmain ▸ List.mem_cons_self
  have h : b.TwoWay ⟨some "false", some "false", none⟩ ⟨some "true", some "true", none⟩ :=
    ⟨rfl, rfl, Or.inr ⟨rfl, rfl⟩⟩
  have hnegate : ∀ d ∈ [Dialect.yarn, .ink], ∀ health ∈ [40, 60],
      strengthHost d health (d.negate (parenthesize (Condition.guardOrTrue d b.condition))) =
        !strengthHost d health (Condition.guardOrTrue d b.condition) := by
    decide +kernel
  obtain ⟨body, hbody, -, -, hplayed⟩ := f.two_way_polarity hs h
  refine ⟨⟨after, hs⟩, h, ⟨body "true", body "false", hbody _ (by simp), hbody _ (by simp)⟩, ?_⟩
  exact fun d hd health hh => (hplayed d _ (hnegate d hd health hh)).mpr (by decide)

/-- With the outcome of the first case in its id alone, the body at `false` is played when the
condition holds. -/
theorem gate_loses_polarity :
    let f := gate [[("id", .str "false")], [("id", .str "true")]]
    let b : Branching :=
      ⟨some strength, [⟨some "false", none, none⟩, ⟨some "true", none, none⟩], false⟩
    let line (id text : String) : Step := .dialogue id ⟨text, none, none, none, none, none, []⟩
    f.linearize.main =
        [.conditionStart "check" b, .conditionBranch "check" b ⟨some "false", none, none⟩ 0,
          line "weak" "Weak", .conditionBranch "check" b ⟨some "true", none, none⟩ 1,
          line "strong" "Strong", .conditionEnd "check" b] ∧
      (Yarn.lines ⟨[], .ofFlows Yarn.digitGuard [f], "gate"⟩ f.linearize.main).value =
        [⟨0, .branch (.ifTest (Condition.guardOrTrue .yarn b.condition))⟩,
          ⟨1, .speech none "Weak"⟩, ⟨0, .branch .otherwise⟩, ⟨1, .speech none "Strong"⟩,
          ⟨0, .endif⟩] ∧
      (Ink.lines ⟨[], .ofFlows Ink.digitGuard [f], [], "gate"⟩ f.linearize.main).value =
        [⟨0, .opening⟩, ⟨1, .branch (.ifTest (Condition.guardOrTrue .ink b.condition))⟩,
          ⟨2, .speech none "Weak"⟩, ⟨1, .branch .otherwise⟩, ⟨2, .speech none "Strong"⟩,
          ⟨0, .closing⟩] ∧
      b.pins = ["false", "true"] ∧
      ∀ d ∈ [Dialect.yarn, .ink],
        let expr := Condition.guardOrTrue d b.condition
        strengthHost d 60 expr = true ∧ strengthHost d 60 (d.negate (parenthesize expr)) = false ∧
          played (strengthHost d 60) (b.arms d) = some "false" := by
  intro f b line
  have hmain : f.linearize.main =
      [.conditionStart "check" b, .conditionBranch "check" b ⟨some "false", none, none⟩ 0,
        line "weak" "Weak", .conditionBranch "check" b ⟨some "true", none, none⟩ 1,
        line "strong" "Strong", .conditionEnd "check" b] := by
    simp only [Flow.linearize, Flow.index, Index.ofGraph, Text.sortByUnits_eq_insertionSort]
    rfl
  rw [hmain]
  refine ⟨rfl, ?_⟩
  decide +kernel

end StoryFlow
