import StoryFlow.Json.Printer
import StoryFlow.Json.Reader
import StoryFlow.Proofs.Json.Each

/-! # Layouts of a document

The two printers differ in the blanks between the tokens only, so both are one printer over a
layout, which says what these blanks are.
-/

namespace StoryFlow.Json

/-- The blanks of a printed document: before each member and before the closing bracket at a
depth, and after the colon of a field. -/
structure Layout where
  line : Nat → List Char
  gap : List Char
  isSpace_line : ∀ depth, ∀ c ∈ line depth, isSpace c
  isSpace_gap : ∀ c ∈ gap, isSpace c

namespace Layout

variable (l : Layout)

mutual

/-- The text of a document that stands at a depth. -/
def chars (depth : Nat) : Json → List Char
  | .null => "null".toList
  | .bool b => (if b then "true" else "false").toList
  | .num n => scalarNumber n
  | .str s => quoted s
  | .arr [] => ['[', ']']
  | .arr (x :: xs) => '[' :: (l.line (depth + 1) ++ chars (depth + 1) x ++ items depth xs)
  | .obj [] => ['\x7b', '\x7d']
  | .obj ((k, v) :: fs) =>
    '\x7b' :: (l.line (depth + 1) ++ quoted k ++ ':' :: l.gap ++ chars (depth + 1) v ++
      fields depth fs)

/-- The elements after the first one, and the closing bracket. -/
def items (depth : Nat) : List Json → List Char
  | [] => l.line depth ++ [']']
  | x :: xs => ',' :: (l.line (depth + 1) ++ chars (depth + 1) x ++ items depth xs)

def fields (depth : Nat) : List (String × Json) → List Char
  | [] => l.line depth ++ ['\x7d']
  | (k, v) :: fs =>
    ',' :: (l.line (depth + 1) ++ quoted k ++ ':' :: l.gap ++ chars (depth + 1) v ++
      fields depth fs)

end

/-- The layout without blanks. -/
def compact : Layout :=
  ⟨fun _ => [], [], by simp, by simp⟩

/-- The layout with one field or element per line. -/
def pretty : Layout where
  line := newLine
  gap := [' ']
  isSpace_line depth c hc := by
    rcases List.mem_cons.mp hc with rfl | hc
    · rfl
    · rw [List.eq_of_mem_replicate hc]
      rfl
  isSpace_gap c hc := by
    rw [List.mem_singleton.mp hc]
    rfl

mutual

theorem chars_compact (depth : Nat) : ∀ j, compact.chars depth j = compactChars j
  | .null | .bool _ | .num _ | .str _ => rfl
  | .arr [] | .obj [] => rfl
  | .arr (x :: xs) => by
    rw [chars, compactChars, chars_compact (depth + 1) x, items_compact depth xs]
    rfl
  | .obj ((k, v) :: fs) => by
    rw [chars, compactChars, chars_compact (depth + 1) v, fields_compact depth fs]
    simp [compact]

theorem items_compact (depth : Nat) : ∀ xs, compact.items depth xs = compactItems xs
  | [] => rfl
  | x :: xs => by
    rw [items, compactItems, chars_compact (depth + 1) x, items_compact depth xs]
    rfl

theorem fields_compact (depth : Nat) : ∀ fs, compact.fields depth fs = compactFields fs
  | [] => rfl
  | (k, v) :: fs => by
    rw [fields, compactFields, chars_compact (depth + 1) v, fields_compact depth fs]
    simp [compact]

end

mutual

theorem chars_pretty (depth : Nat) : ∀ j, pretty.chars depth j = prettyChars depth j
  | .null | .bool _ | .num _ | .str _ => rfl
  | .arr [] | .obj [] => rfl
  | .arr (x :: xs) => by
    rw [chars, prettyChars, chars_pretty (depth + 1) x, items_pretty depth xs]
    rfl
  | .obj ((k, v) :: fs) => by
    rw [chars, prettyChars, chars_pretty (depth + 1) v, fields_pretty depth fs]
    simp [pretty]

theorem items_pretty (depth : Nat) : ∀ xs, pretty.items depth xs = prettyItems depth xs
  | [] => rfl
  | x :: xs => by
    rw [items, prettyItems, chars_pretty (depth + 1) x, items_pretty depth xs]
    rfl

theorem fields_pretty (depth : Nat) : ∀ fs, pretty.fields depth fs = prettyFields depth fs
  | [] => rfl
  | (k, v) :: fs => by
    rw [fields, prettyFields, chars_pretty (depth + 1) v, fields_pretty depth fs]
    simp [pretty]

end

/-! ## Members of an object -/

variable (depth : Nat) {k : String} {v : Json} {fs : Fields}

theorem infix_fields (h : (k, v) ∈ fs) :
    quoted k ++ ':' :: (l.gap ++ l.chars (depth + 1) v) <:+: l.fields depth fs := by
  induction fs with
  | nil => exact nomatch h
  | cons f fs ih =>
    obtain ⟨k', v'⟩ := f
    rcases List.mem_cons.mp h with hf | hf
    · obtain ⟨rfl, rfl⟩ := Prod.mk.inj hf
      exact ⟨',' :: l.line (depth + 1), l.fields depth fs, by simp [fields]⟩
    · have hsuffix : l.fields depth fs <:+ l.fields depth ((k', v') :: fs) := by
        rw [fields, ← List.cons_append]
        exact List.suffix_append _ _
      exact (ih hf).trans hsuffix.isInfix

/-- A field stands in the text of its object: the key, the colon and the text of the value. -/
theorem infix_chars_obj (h : (k, v) ∈ fs) :
    quoted k ++ ':' :: (l.gap ++ l.chars (depth + 1) v) <:+: l.chars depth (.obj fs) := by
  cases fs with
  | nil => exact nomatch h
  | cons f fs =>
    obtain ⟨k', v'⟩ := f
    rcases List.mem_cons.mp h with hf | hf
    · obtain ⟨rfl, rfl⟩ := Prod.mk.inj hf
      exact ⟨'\x7b' :: l.line (depth + 1), l.fields depth fs, by simp [chars]⟩
    · have hsuffix : l.fields depth fs <:+ l.chars depth (.obj ((k', v') :: fs)) := by
        rw [chars, ← List.cons_append]
        exact List.suffix_append _ _
      exact (l.infix_fields depth hf).trans hsuffix.isInfix

/-! ## The sign of zero -/

variable {l}

theorem scalarNumber_unsigned (n : Number) : scalarNumber n.unsigned = scalarNumber n := by
  simp [scalarNumber]

mutual

/-- The sign of zero is not printed. -/
theorem chars_unsigned (depth : Nat) : ∀ j : Json, l.chars depth j.unsigned = l.chars depth j
  | .null | .bool _ | .str _ => rfl
  | .num n => scalarNumber_unsigned n
  | .arr [] | .obj [] => rfl
  | .arr (x :: xs) => by
    rw [unsigned_arr, List.map_cons, chars, chars, chars_unsigned (depth + 1) x,
      items_unsigned depth xs]
  | .obj ((k, v) :: fs) => by
    rw [unsigned_obj, Fields.mapValues, List.map_cons, chars, chars, chars_unsigned (depth + 1) v,
      ← Fields.mapValues, fields_unsigned depth fs]

theorem items_unsigned (depth : Nat) :
    ∀ xs : List Json, l.items depth (xs.map unsigned) = l.items depth xs
  | [] => rfl
  | x :: xs => by
    rw [List.map_cons, items, items, chars_unsigned (depth + 1) x, items_unsigned depth xs]

theorem fields_unsigned (depth : Nat) :
    ∀ fs : Fields, l.fields depth (fs.mapValues unsigned) = l.fields depth fs
  | [] => rfl
  | (k, v) :: fs => by
    rw [Fields.mapValues, List.map_cons, fields, fields, chars_unsigned (depth + 1) v,
      ← Fields.mapValues, fields_unsigned depth fs]

end

end Layout

end StoryFlow.Json
