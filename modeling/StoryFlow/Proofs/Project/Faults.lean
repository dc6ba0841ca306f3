import StoryFlow.Project.Schema

/-! # Faults are told

Whatever cannot be read is reported with an issue at least, so a faulty project has a first one.
-/

namespace StoryFlow

variable {α β : Type}

/-- A checked value is valid, or it has an issue. -/
def Checked.Told (c : Checked α) : Prop :=
  c ≠ .faulty []

/-- A reader tells why it does not read a value. -/
def Reader.Told (r : Reader α) : Prop :=
  ∀ j, (r j).Told

namespace Checked

variable {c : Checked α} {g : Checked (α → β)}

theorem told_valid (a : α) : (valid a).Told := nofun

theorem told_fault (f : Fault) : (fault f : Checked α).Told := nofun

theorem told_map (f : α → β) (h : c.Told) : (f <$> c).Told := by
  cases c with
  | valid a => exact told_valid (f a)
  | faulty is => exact fun he => h (congrArg _ (faulty.inj he))

/-- The issues of both sides are joined. -/
theorem told_seq (hg : g.Told) (h : c.Told) : (g <*> c).Told := by
  cases g with
  | valid f =>
    cases c with
    | valid a => exact told_valid (f a)
    | faulty is => exact fun he => h (congrArg _ (faulty.inj he))
  | faulty is =>
    have his : is ≠ [] := fun he => hg (congrArg _ he)
    cases c with
    | valid a => exact fun he => his (faulty.inj he)
    | faulty more => exact fun he => his (List.append_eq_nil_iff.mp (faulty.inj he)).1

theorem told_under (key : String) (h : c.Told) : (c.under key).Told := by
  cases c with
  | valid a => exact told_valid a
  | faulty is => exact fun he => h (congrArg _ (List.map_eq_nil_iff.mp (faulty.inj he)))

end Checked

namespace Reader

open Checked

variable {r : Reader α}

@[simp] theorem told_ofKind (expected : Json.Kind) (take : Json → Option α) :
    (ofKind expected take).Told := by
  intro j
  cases j with
  | none => exact told_fault _
  | some v =>
    rw [ofKind]
    cases take v with
    | none => exact told_fault _
    | some a => exact told_valid a

@[simp] theorem told_nullable (h : r.Told) : (nullable r).Told := by
  intro j
  unfold nullable
  split
  · exact told_valid _
  · exact told_valid _
  · exact told_map _ (h _)

@[simp] theorem told_maybe (h : r.Told) : (maybe r).Told := by
  intro j
  cases j with
  | none => exact told_valid _
  | some v => exact told_map _ (told_nullable h _)

@[simp] theorem told_withDefault (default : α) (h : r.Told) : (withDefault default r).Told := by
  intro j
  cases j with
  | none => exact told_valid _
  | some v => exact h _

@[simp] theorem told_orElse (default : α) (h : r.Told) : (orElse default r).Told :=
  fun _ => told_map _ (told_nullable h _)

@[simp] theorem told_ident : ident.Told := by
  intro j
  unfold ident
  split
  · exact told_valid _
  · exact told_valid _
  · exact told_fault _

@[simp] theorem told_string : string.Told := told_ofKind _ _

@[simp] theorem told_number : number.Told := told_ofKind _ _

@[simp] theorem told_fields : fields.Told := told_ofKind _ _

@[simp] theorem told_reference : reference.Told :=
  fun _ => told_map _ (told_nullable told_ident _)

@[simp] theorem told_text : text.Told := told_nullable told_string

@[simp] theorem told_flag : flag.Told := told_orElse _ (told_ofKind _ _)

@[simp] theorem told_freeForm : freeForm.Told := told_orElse _ told_fields

theorem told_elements (h : r.Told) (items : List Json) : ∀ n, (elements r n items).Told := by
  induction items with
  | nil => exact fun _ => told_valid _
  | cons j items ih => exact fun n => told_seq (told_map _ (told_under _ (h _))) (ih _)

@[simp] theorem told_list (h : r.Told) : (list r).Told := by
  refine told_withDefault _ fun j => ?_
  unfold array
  split
  · exact told_fault _
  · exact told_elements h _ _
  · exact told_fault _

theorem told_object {read : Fields → Checked α} (h : ∀ fs, (read fs).Told) :
    (object read).Told := by
  intro j
  unfold object
  split
  · exact told_fault _
  · exact h _
  · exact told_fault _

theorem told_field (fs : Fields) (key : String) (h : r.Told) : (field fs key r).Told :=
  told_under key (h _)

end Reader

open Checked Reader

-- A schema joins the fields that it reads, and what reads a field tells its faults.

@[simp] theorem Block.told_read : Block.read.Told :=
  told_object fun _ => by apply_rules [told_seq, told_map, told_field] <;> simp

@[simp] theorem Sheet.told_read : Sheet.read.Told :=
  told_object fun _ => by apply_rules [told_seq, told_map, told_field] <;> simp

@[simp] theorem Node.told_read : Node.read.Told :=
  told_object fun _ => by apply_rules [told_seq, told_map, told_field] <;> simp

@[simp] theorem Connection.told_read : Connection.read.Told :=
  told_object fun _ => by apply_rules [told_seq, told_map, told_field] <;> simp

@[simp] theorem Flow.told_read : Flow.read.Told :=
  told_object fun _ => by apply_rules [told_seq, told_map, told_field] <;> simp

@[simp] theorem Entity.told_read : Entity.read.Told :=
  told_object fun _ => by apply_rules [told_seq, told_map, told_field] <;> simp

@[simp] theorem Language.told_read : Language.read.Told :=
  told_object fun _ => by apply_rules [told_seq, told_map, told_field] <;> simp

@[simp] theorem LocalizedText.told_read : LocalizedText.read.Told :=
  told_object fun _ => by apply_rules [told_seq, told_map, told_field] <;> simp

@[simp] theorem GlossaryEntry.told_read : GlossaryEntry.read.Told :=
  told_object fun _ => by apply_rules [told_seq, told_map, told_field] <;> simp

@[simp] theorem Localization.told_read : Localization.read.Told :=
  told_object fun _ => by apply_rules [told_seq, told_map, told_field] <;> simp

@[simp] theorem Asset.told_read : Asset.read.Told :=
  told_object fun _ => by apply_rules [told_seq, told_map, told_field] <;> simp

@[simp] theorem ProjectInfo.told_read : ProjectInfo.read.Told :=
  told_object fun _ => by apply_rules [told_seq, told_map, told_field] <;> simp

theorem Project.told_read : Project.read.Told :=
  told_object fun _ => by apply_rules [told_seq, told_map, told_field] <;> simp

end StoryFlow
