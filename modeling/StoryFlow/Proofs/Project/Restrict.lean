import StoryFlow.Filter

/-! # What a restriction keeps

Options admit an item of a list or do not, whatever else stands in the list, and a restricted
project has the admitted items of each list. So restricting twice by the same options changes
nothing, the order of two restrictions does not matter, and an item is left by both exactly when it
is left by each.
-/

namespace StoryFlow

/-- The lists of a project. -/
inductive Collection where
  | sheets | flows | scenes | screenplays | languages | strings | glossary | assets

namespace Collection

/-- What a list holds. -/
def Item : Collection → Type
  | sheets => Sheet
  | flows => Flow
  | scenes | screenplays => Entity
  | languages => Language
  | strings => LocalizedText
  | glossary => GlossaryEntry
  | assets => Asset

/-- The part of a project that a list belongs to. -/
def part : Collection → Part
  | sheets => .sheets
  | flows => .flows
  | scenes => .scenes
  | screenplays => .screenplays
  | languages | strings | glossary => .localization
  | assets => .assets

end Collection

def Project.itemsOf (p : Project) : (c : Collection) → List c.Item
  | .sheets => p.sheets
  | .flows => p.flows
  | .scenes => p.scenes
  | .screenplays => p.screenplays
  | .languages => p.localization.languages
  | .strings => p.localization.strings
  | .glossary => p.localization.glossary
  | .assets => p.assets

namespace Options

/-- Do the selections take an item? Screenplays and assets are not selected one by one. -/
def selects (o : Options) : (c : Collection) → c.Item → Bool
  | .sheets, (s : Sheet) => o.sheetIds.keeps s.id
  | .flows, (f : Flow) => o.flowIds.keeps f.id
  | .scenes, (e : Entity) => o.sceneIds.keeps e.id
  | .languages, (l : Language) => l.isSource || o.languages.keeps l.locale
  | .strings, (t : LocalizedText) => o.languages.keeps t.locale
  | .glossary, (g : GlossaryEntry) => o.languages.keeps g.targetLocale
  | .screenplays, _ | .assets, _ => true

/-- Is an item part of an export with these options? -/
def admits (o : Options) (c : Collection) (x : c.Item) : Bool :=
  o.includes c.part && o.selects c x

end Options

namespace Project

variable {p q : Project}

/-- A project is its head and its lists. -/
theorem eq_of_itemsOf (hinfo : p.info = q.info) (hitems : ∀ c, p.itemsOf c = q.itemsOf c) :
    p = q := by
  have hlocalization : p.localization = q.localization := by
    rw [Localization.mk.injEq]
    exact ⟨hitems .languages, hitems .strings, hitems .glossary⟩
  rw [Project.mk.injEq]
  exact ⟨hinfo, hitems .sheets, hitems .flows, hitems .scenes, hitems .screenplays, hlocalization,
    hitems .assets⟩

/-- A list of a part that is left out is empty, and any other keeps what the selections take. -/
theorem itemsOf_restrict_ite (p : Project) (o : Options) (c : Collection) :
    (p.restrict o).itemsOf c =
      if o.includes c.part then (p.itemsOf c).filter (o.selects c) else [] := by
  cases c with
  | sheets | flows | scenes => rfl
  | screenplays | assets =>
    exact congrArg (ite _ · []) (List.filter_eq_self.mpr fun _ _ => rfl).symm
  | languages => exact apply_ite Localization.languages _ _ _
  | strings => exact apply_ite Localization.strings _ _ _
  | glossary => exact apply_ite Localization.glossary _ _ _

theorem itemsOf_restrict (p : Project) (o : Options) (c : Collection) :
    (p.restrict o).itemsOf c = (p.itemsOf c).filter (o.admits c) := by
  rw [itemsOf_restrict_ite]
  split
  · rename_i hi
    exact List.filter_congr fun x _ => by simp [Options.admits, hi]
  · rename_i hi
    exact (List.filter_eq_nil_iff.mpr fun x _ => by simp [Options.admits, hi]).symm

variable (p) (a b : Options)

theorem restrict_sublist (c : Collection) : ((p.restrict a).itemsOf c).Sublist (p.itemsOf c) := by
  rw [itemsOf_restrict]
  exact List.filter_sublist

theorem itemsOf_restrict_restrict (c : Collection) : ((p.restrict a).restrict b).itemsOf c =
    (p.itemsOf c).filter fun x => a.admits c x && b.admits c x := by
  rw [itemsOf_restrict, itemsOf_restrict, List.filter_filter]
  exact List.filter_congr fun x _ => Bool.and_comm _ _

theorem restrict_restrict_self : (p.restrict a).restrict a = p.restrict a := by
  refine eq_of_itemsOf ?_ fun c => ?_
  · rfl
  · rw [itemsOf_restrict_restrict, itemsOf_restrict]
    exact List.filter_congr fun x _ => Bool.and_self _

theorem restrict_restrict_comm : (p.restrict a).restrict b = (p.restrict b).restrict a := by
  refine eq_of_itemsOf ?_ fun c => ?_
  · rfl
  · rw [itemsOf_restrict_restrict, itemsOf_restrict_restrict]
    exact List.filter_congr fun x _ => Bool.and_comm _ _

theorem mem_restrict_restrict {c : Collection} {x : c.Item} :
    x ∈ ((p.restrict a).restrict b).itemsOf c ↔
      x ∈ (p.restrict a).itemsOf c ∧ x ∈ (p.restrict b).itemsOf c := by
  simp only [itemsOf_restrict, List.mem_filter]
  constructor
  · rintro ⟨⟨hx, ha⟩, hb⟩
    exact ⟨⟨hx, ha⟩, hx, hb⟩
  · rintro ⟨hxa, -, hb⟩
    exact ⟨hxa, hb⟩

/-- Restricting is idempotent and commutes. Of each list it keeps the admitted items, as they are
and in their order, and the items that two restrictions keep are those that each of them keeps. -/
theorem restrict_laws :
    (p.restrict a).restrict a = p.restrict a ∧
    (p.restrict a).restrict b = (p.restrict b).restrict a ∧
    (p.restrict a).info = p.info ∧
    ∀ c : Collection, ((p.restrict a).itemsOf c).Sublist (p.itemsOf c) ∧
      (p.restrict a).itemsOf c = (p.itemsOf c).filter (a.admits c) ∧
      (((p.restrict a).restrict b).itemsOf c =
        (p.itemsOf c).filter fun x => a.admits c x && b.admits c x) ∧
      ∀ x, x ∈ ((p.restrict a).restrict b).itemsOf c ↔
        x ∈ (p.restrict a).itemsOf c ∧ x ∈ (p.restrict b).itemsOf c := by
  refine ⟨p.restrict_restrict_self a, p.restrict_restrict_comm a b, rfl, fun c => ?_⟩
  exact ⟨p.restrict_sublist a c, p.itemsOf_restrict a c, p.itemsOf_restrict_restrict a b c,
    fun x => p.mem_restrict_restrict a b⟩

end Project

end StoryFlow
