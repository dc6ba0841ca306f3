import StoryFlow.Xml

/-! # Reading trees and laying them out

Indentation puts line breaks beside child elements and does nothing else: the elements of a tree
keep their names, attributes and texts, and leaving the line breaks out gives the tree back, if no
element holds both texts and elements. A tree that is laid out line by line is the indentation of
what is left without its line breaks.
-/

namespace StoryFlow.Xml

/-- What holds of a tree if it holds of its children holds of every tree. -/
@[elab_as_elim]
theorem induct {P : Xml → Prop} (text : ∀ s, P (text s))
    (element : ∀ name attributes children, (∀ x ∈ children, P x) →
      P (element name attributes children)) : ∀ x, P x
  | .text s => text s
  | .element name attributes children =>
    element name attributes children fun x _ => induct text element x

/-! ## Reading -/

def tag? : Xml → Option String
  | element name _ _ => some name
  | text _ => none

def attribute? (key : String) : Xml → Option String
  | element _ attributes _ => attributes.lookup key
  | text _ => none

/-- The child elements. -/
def elements : Xml → List Xml
  | element _ _ children => children.filter isElement
  | text _ => []

/-- The child elements of a name. -/
def named (name : String) (x : Xml) : List Xml :=
  x.elements.filter (·.tag? = some name)

/-- What an element says apart from its child elements. -/
structure Tag where
  name : String
  attributes : List (String × String)
  texts : List String
deriving DecidableEq

def text? : Xml → Option String
  | text s => some s
  | element .. => none

/-- The texts of an element without child elements. -/
def ownTexts (children : List Xml) : List String :=
  if children.any isElement then [] else children.filterMap text?

mutual

/-- The elements of a tree in the order of the document. -/
def tags : Xml → List Tag
  | text _ => []
  | element name attributes children =>
    ⟨name, attributes, ownTexts children⟩ :: childTags children

def childTags : List Xml → List Tag
  | [] => []
  | x :: xs => tags x ++ childTags xs

end

/-! ## Line breaks -/

mutual

/-- Leaves out the texts that stand beside child elements. -/
def erase : Xml → Xml
  | text s => text s
  | element name attributes children =>
    if children.any isElement then element name attributes (eraseChildren children)
    else element name attributes children

def eraseChildren : List Xml → List Xml
  | [] => []
  | x :: xs => if x.isElement then erase x :: eraseChildren xs else eraseChildren xs

end

/-- No element holds both texts and elements. -/
inductive Unmixed : Xml → Prop where

  | text (s : String) : Unmixed (text s)

  | texts {name attributes children} : (∀ x ∈ children, x.isElement = false) →
      Unmixed (element name attributes children)

  | elements {name attributes children} : (∀ x ∈ children, x.isElement) →
      (∀ x ∈ children, Unmixed x) → Unmixed (element name attributes children)

/-- Elements with a line break before each of them, and one before the end tag that follows. -/
def onLines (depth : Nat) (xs : List Xml) : List Xml :=
  (xs.flatMap fun x => [lineBreak (depth + 1), x]) ++ [lineBreak depth]

/-- Child elements stand on lines of their own, one level deeper than the element that holds them,
whose end tag is on a line of its own, too. An element without child elements is on one line. -/
inductive LaidOut : Nat → Xml → Prop where

  | text {depth} (s : String) : LaidOut depth (text s)

  | line {depth name attributes children} : (∀ x ∈ children, x.isElement = false) →
      LaidOut depth (element name attributes children)

  | lines {depth name attributes children} : children ≠ [] → (∀ x ∈ children, x.isElement) →
      (∀ x ∈ children, LaidOut (depth + 1) x) →
      LaidOut depth (element name attributes (onLines depth children))

variable {name : String} {attributes : List (String × String)} {children xs : List Xml} {x y : Xml}
  {depth : Nat}

section Elements

@[simp] theorem isElement_element : (element name attributes children).isElement = true := rfl

@[simp] theorem isElement_leaf (s : String) : (leaf name s).isElement = true := rfl

@[simp] theorem tag?_element : (element name attributes children).tag? = some name := rfl

@[simp] theorem tag?_leaf (s : String) : (leaf name s).tag? = some name := rfl

@[simp] theorem named_element (tag : String) :
    (element name attributes children).named tag = children.filter (·.tag? = some tag) := by
  rw [named, elements, List.filter_filter]
  refine List.filter_congr fun x _ => ?_
  cases x <;> simp [tag?, isElement]

end Elements

section Lines

theorem any_isElement_iff : xs.any isElement ↔ xs.filter isElement ≠ [] := by
  simp

@[simp] theorem isElement_lineBreak : (lineBreak depth).isElement = false := rfl

@[simp] theorem isElement_indent : (indent depth x).isElement = x.isElement := by
  cases x with
  | text s => rfl
  | element name attributes children =>
    rw [indent]
    split <;> rfl

theorem indentChildren_eq (h : ∀ x ∈ xs, x.isElement) :
    indentChildren depth xs ++ [lineBreak depth] = onLines depth (xs.map (indent (depth + 1))) := by
  induction xs with
  | nil => rfl
  | cons x xs ih =>
    rw [List.forall_mem_cons] at h
    rw [indentChildren, if_pos h.1, onLines, List.map_cons, List.flatMap_cons, List.cons_append,
      List.cons_append, ih h.2]
    rfl

theorem filter_isElement_indentChildren :
    (indentChildren depth xs).filter isElement =
      (xs.filter isElement).map (indent (depth + 1)) := by
  induction xs with
  | nil => rfl
  | cons x xs ih => by_cases h : x.isElement <;> simp [indentChildren, h, ih]

theorem filter_isElement_onLines (h : ∀ x ∈ xs, x.isElement) :
    (onLines depth xs).filter isElement = xs := by
  induction xs with
  | nil => rfl
  | cons x xs ih =>
    rw [List.forall_mem_cons] at h
    have hrest := ih h.2
    simp [onLines] at hrest
    simp [onLines, h.1, hrest]

theorem eraseChildren_eq : eraseChildren xs = (xs.filter isElement).map erase := by
  induction xs with
  | nil => rfl
  | cons x xs ih => by_cases h : x.isElement <;> simp [eraseChildren, h, ih]

end Lines

/-! ## Indentation -/

@[simp] theorem tag?_indent : (indent depth x).tag? = x.tag? := by
  cases x with
  | text s => rfl
  | element name attributes children =>
    rw [indent]
    split <;> rfl

@[simp] theorem attribute?_indent (key : String) :
    (indent depth x).attribute? key = x.attribute? key := by
  cases x with
  | text s => rfl
  | element name attributes children =>
    rw [indent]
    split <;> rfl

theorem elements_indent : (indent depth x).elements = x.elements.map (indent (depth + 1)) := by
  cases x with
  | text s => rfl
  | element name attributes children =>
    rw [indent]
    split
    · simp [elements, filter_isElement_indentChildren]
    · rename_i h
      have hnone : children.filter isElement = [] := by simpa using h
      rw [elements, hnone, List.map_nil]

theorem named_indent (name : String) :
    (indent depth x).named name = (x.named name).map (indent (depth + 1)) := by
  simp [named, elements_indent, List.filter_map, Function.comp_def]

theorem flatMap_named_indent (name : String) (xs : List Xml) :
    (xs.map (indent depth)).flatMap (named name) =
      (xs.flatMap (named name)).map (indent (depth + 1)) := by
  rw [List.flatMap_map, List.map_flatMap]
  exact congrArg xs.flatMap (funext fun _ => named_indent name)

theorem indent_of_texts (h : ∀ x ∈ children, x.isElement = false) :
    indent depth (element name attributes children) = element name attributes children := by
  rw [indent, if_neg (by simpa using h)]

theorem indent_of_elements (hne : children ≠ []) (h : ∀ x ∈ children, x.isElement) :
    indent depth (element name attributes children) =
      element name attributes (onLines depth (children.map (indent (depth + 1)))) := by
  have hany : children.any isElement := by
    rw [any_isElement_iff, List.filter_eq_self.mpr h]
    exact hne
  rw [indent, if_pos hany, indentChildren_eq h]

theorem erase_of_texts (h : ∀ x ∈ children, x.isElement = false) :
    erase (element name attributes children) = element name attributes children := by
  rw [erase, if_neg (by simpa using h)]

theorem erase_onLines (hne : children ≠ []) (h : ∀ x ∈ children, x.isElement) :
    erase (element name attributes (onLines depth children)) =
      element name attributes (children.map erase) := by
  have hfilter : (onLines depth children).filter isElement = children :=
    filter_isElement_onLines h
  have hany : (onLines depth children).any isElement := by
    rw [any_isElement_iff, hfilter]
    exact hne
  rw [erase, if_pos hany, eraseChildren_eq, hfilter]

@[simp] theorem isElement_erase : x.erase.isElement = x.isElement := by
  cases x with
  | text s => rfl
  | element name attributes children =>
    rw [erase]
    split <;> rfl

theorem Unmixed.laidOut_indent (h : Unmixed x) : LaidOut depth (indent depth x) := by
  induction h generalizing depth with
  | text s => exact .text s
  | texts h =>
    rw [indent_of_texts h]
    exact .line h
  | @elements name attributes children h _ ih =>
    by_cases hne : children = []
    · subst hne
      exact .line (List.forall_mem_nil _)
    · rw [indent_of_elements hne h]
      apply LaidOut.lines
      · simpa using hne
      · simpa using h
      · simpa using fun x hx => ih x hx

theorem Unmixed.erase_indent (h : Unmixed x) : (indent depth x).erase = x := by
  induction h generalizing depth with
  | text s => rfl
  | texts h => rw [indent_of_texts h, erase_of_texts h]
  | @elements name attributes children h _ ih =>
    by_cases hne : children = []
    · subst hne
      rfl
    · rw [indent_of_elements hne h, erase_onLines (by simpa using hne) (by simpa using h),
        List.map_map]
      exact congrArg _ ((List.map_congr_left fun x hx => ih x hx).trans (List.map_id _))

/-- A tree that is laid out is the indentation of what is left without its line breaks. -/
theorem LaidOut.eq_indent (h : LaidOut depth y) : y = indent depth y.erase := by
  induction h with
  | text s => rfl
  | line h => rw [erase_of_texts h, indent_of_texts h]
  | @lines depth name attributes children hne h _ ih =>
    have hmap : (children.map erase).map (indent (depth + 1)) = children := by
      rw [List.map_map]
      exact (List.map_congr_left fun x hx => (ih x hx).symm).trans (List.map_id _)
    rw [erase_onLines hne h, indent_of_elements (by simpa using hne) (by simpa using h), hmap]

/-- Indentation is the one way to lay a tree out. -/
theorem Unmixed.eq_indent_iff (h : Unmixed x) :
    y = indent depth x ↔ LaidOut depth y ∧ y.erase = x := by
  constructor
  · rintro rfl
    exact ⟨h.laidOut_indent, h.erase_indent⟩
  · rintro ⟨hy, rfl⟩
    exact hy.eq_indent

@[simp] theorem childTags_append (xs ys : List Xml) :
    childTags (xs ++ ys) = childTags xs ++ childTags ys := by
  induction xs with
  | nil => rfl
  | cons x xs ih => rw [List.cons_append, childTags, childTags, ih, List.append_assoc]

theorem childTags_indentChildren (h : ∀ x ∈ xs, (indent (depth + 1) x).tags = x.tags) :
    childTags (indentChildren depth xs) = childTags xs := by
  induction xs with
  | nil => rfl
  | cons x xs ih =>
    rw [List.forall_mem_cons] at h
    rw [indentChildren, childTags]
    split
    · rw [childTags, childTags, h.1, ih h.2]
      rfl
    · rw [childTags, ih h.2]

/-- Indentation keeps the elements with their attributes and texts. -/
theorem tags_indent : (indent depth x).tags = x.tags := by
  induction x using induct generalizing depth with
  | text s => rfl
  | element name attributes children ih =>
    rw [indent]
    split
    · rename_i hany
      have hindent : (indentChildren depth children ++ [lineBreak depth]).any isElement := by
        rw [List.any_append, Bool.or_eq_true, any_isElement_iff, filter_isElement_indentChildren]
        exact .inl (mt List.map_eq_nil_iff.mp (any_isElement_iff.mp hany))
      rw [tags, tags, ownTexts, ownTexts, if_pos hany, if_pos hindent, childTags_append,
        childTags_indentChildren fun x hx => ih x hx]
      exact congrArg _ (List.append_nil _)
    · rfl

end StoryFlow.Xml
