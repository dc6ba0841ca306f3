import StoryFlow.Proofs.Json.RoundTrip
import StoryFlow.Proofs.Json.Tokens

/-! # The texts of a value

Which texts denote a value is said by a grammar: values with blanks around them, those of an array
with commas between them, and those of an object with a key and a colon in front. The reader
accepts exactly these texts and gives the value that they denote.
-/

namespace StoryFlow.Json

def Spaces (w : List Char) : Prop :=
  ∀ c ∈ w, isSpace c

/-- A value as it is written, with blanks around it. -/
structure Element where
  before : List Char
  text : List Char
  after : List Char
  value : Json

def Element.chars (e : Element) : List Char :=
  e.before ++ (e.text ++ e.after)

structure Element.Padded (e : Element) : Prop where
  before : Spaces e.before
  after : Spaces e.after

/-- A field as it is written: a quoted key with blanks around it, a colon and a value. -/
structure Member where
  before : List Char
  key : List Char
  name : List Char
  after : List Char
  element : Element

def Member.chars (m : Member) : List Char :=
  m.before ++ '"' :: (m.key ++ '"' :: (m.after ++ ':' :: m.element.chars))

structure Member.Padded (m : Member) : Prop where
  before : Spaces m.before
  key : Quoted m.key m.name
  after : Spaces m.after
  element : m.element.Padded

def Member.field (m : Member) : String × Json :=
  (String.ofList m.name, m.element.value)

/-- Parts with commas between them. -/
def commas (parts : List (List Char)) : List Char :=
  [','].intercalate parts

/-- The texts of a value, with no blanks around it. -/
inductive Spells : List Char → Json → Prop where

  | null : Spells "null".toList .null

  | true : Spells "true".toList (.bool Bool.true)

  | false : Spells "false".toList (.bool Bool.false)

  | num {t : List Char} {x : Number} : Numeral t x → Spells t (.num x)

  | str {q cs : List Char} : Quoted q cs → Spells ('"' :: (q ++ ['"'])) (.str (String.ofList cs))

  | emptyArr {w : List Char} : Spaces w → Spells ('[' :: (w ++ [']'])) (.arr [])

  | arr {es : List Element} : es ≠ [] → (∀ e ∈ es, e.Padded) →
      (∀ e ∈ es, Spells e.text e.value) →
      Spells ('[' :: (commas (es.map Element.chars) ++ [']'])) (.arr (es.map Element.value))

  | emptyObj {w : List Char} : Spaces w → Spells ('\x7b' :: (w ++ ['\x7d'])) (.obj [])

  | obj {ms : List Member} : ms ≠ [] → (∀ m ∈ ms, m.Padded) →
      (∀ m ∈ ms, Spells m.element.text m.element.value) →
      Spells ('\x7b' :: (commas (ms.map Member.chars) ++ ['\x7d'])) (ofFields (ms.map Member.field))

/-- The text of a document denotes a value. -/
def Denotes (s : String) (v : Json) : Prop :=
  ∃ e : Element, e.Padded ∧ Spells e.text e.value ∧ s.toList = e.chars ∧ v = e.value

section Parts

variable {cs w w' t : List Char} {n : Nat} {v : Json} {vs : List Json} {f : String × Json}
  {fs : List (String × Json)}

theorem commas_singleton (p : List Char) : commas [p] = p := by
  simp [commas]

theorem commas_cons {p : List Char} {parts : List (List Char)} (hp : parts ≠ []) :
    commas (p :: parts) = p ++ ',' :: commas parts := by
  cases parts with
  | nil => exact absurd rfl hp
  | cons q parts => simp [commas, List.intercalate_cons_cons]

/-- A text of elements, with the values that they denote. -/
def SpellsItems (cs : List Char) (vs : List Json) : Prop :=
  ∃ es : List Element, es ≠ [] ∧ (∀ e ∈ es, e.Padded) ∧ (∀ e ∈ es, Spells e.text e.value) ∧
    cs = commas (es.map Element.chars) ∧ vs = es.map Element.value

/-- A text of fields, with the keys and the values that they denote. -/
def SpellsFields (cs : List Char) (fs : List (String × Json)) : Prop :=
  ∃ ms : List Member, ms ≠ [] ∧ (∀ m ∈ ms, m.Padded) ∧
    (∀ m ∈ ms, Spells m.element.text m.element.value) ∧
    cs = commas (ms.map Member.chars) ∧ fs = ms.map Member.field

theorem commas_head (p : List Char) (parts : List (List Char)) :
    ∃ more, commas (p :: parts) = p ++ more := by
  cases parts with
  | nil => exact ⟨[], by rw [commas_singleton, List.append_nil]⟩
  | cons q parts => exact ⟨_, commas_cons (List.cons_ne_nil q parts)⟩

theorem SpellsItems.arr (h : SpellsItems cs vs) : Spells ('[' :: (cs ++ [']'])) (.arr vs) := by
  obtain ⟨es, hne, hpad, hspell, rfl, rfl⟩ := h
  exact .arr hne hpad hspell

theorem SpellsFields.obj (h : SpellsFields cs fs) :
    Spells ('\x7b' :: (cs ++ ['\x7d'])) (ofFields fs) := by
  obtain ⟨ms, hne, hpad, hspell, rfl, rfl⟩ := h
  exact .obj hne hpad hspell

theorem SpellsItems.one (e : Element) (hpad : e.Padded) (hspell : Spells e.text e.value) :
    SpellsItems e.chars [e.value] :=
  ⟨[e], by simp, by simpa using hpad, by simpa using hspell, (commas_singleton _).symm, rfl⟩

theorem SpellsItems.cons (e : Element) (hpad : e.Padded) (hspell : Spells e.text e.value)
    (h : SpellsItems cs vs) : SpellsItems (e.chars ++ ',' :: cs) (e.value :: vs) := by
  obtain ⟨es, hne, hpads, hspells, rfl, rfl⟩ := h
  exact ⟨e :: es, by simp, List.forall_mem_cons.mpr ⟨hpad, hpads⟩,
    List.forall_mem_cons.mpr ⟨hspell, hspells⟩, (commas_cons (by simpa using hne)).symm, rfl⟩

theorem SpellsFields.one (m : Member) (hpad : m.Padded)
    (hspell : Spells m.element.text m.element.value) : SpellsFields m.chars [m.field] :=
  ⟨[m], by simp, by simpa using hpad, by simpa using hspell, (commas_singleton _).symm, rfl⟩

theorem SpellsFields.cons (m : Member) (hpad : m.Padded)
    (hspell : Spells m.element.text m.element.value) (h : SpellsFields cs fs) :
    SpellsFields (m.chars ++ ',' :: cs) (m.field :: fs) := by
  obtain ⟨ms, hne, hpads, hspells, rfl, rfl⟩ := h
  exact ⟨m :: ms, by simp, List.forall_mem_cons.mpr ⟨hpad, hpads⟩,
    List.forall_mem_cons.mpr ⟨hspell, hspells⟩, (commas_cons (by simpa using hne)).symm, rfl⟩

end Parts

section Sound

variable {cs rest w : List Char} {n : Nat} {v : Json} {vs : List Json} {fs : List (String × Json)}

theorem skipSpace_split (cs : List Char) : ∃ w, Spaces w ∧ cs = w ++ skipSpace cs :=
  ⟨cs.takeWhile isSpace, fun _ hc => List.mem_takeWhile_imp hc,
    List.takeWhile_append_dropWhile.symm⟩

variable (hvalue : ∀ {cs v rest}, readValue n cs = some (v, rest) →
  ∃ t, cs = t ++ rest ∧ Spells t v)
include hvalue

theorem items_of_readItems
    (hitems : ∀ {cs vs rest w}, readItems n cs = some (vs, rest) → Spaces w →
      ∃ t, w ++ cs = t ++ ']' :: rest ∧ SpellsItems t vs)
    (h : readItems (n + 1) cs = some (vs, rest)) (hw : Spaces w) :
    ∃ t, w ++ cs = t ++ ']' :: rest ∧ SpellsItems t vs := by
  simp only [readItems, Option.bind_eq_bind, Option.bind_eq_some_iff] at h
  obtain ⟨⟨x, after⟩, hx, h⟩ := h
  obtain ⟨t, rfl, ht⟩ := hvalue hx
  obtain ⟨w', hw', hafter⟩ := skipSpace_split after
  split at h
  · rename_i heq
    obtain ⟨rfl, rfl⟩ := Prod.mk.inj (Option.some.inj h)
    refine ⟨_, ?_, .one ⟨w, t, w', x⟩ ⟨hw, hw'⟩ ht⟩
    rw [hafter, heq]
    simp [Element.chars]
  · rename_i more heq
    obtain ⟨⟨xs, r⟩, hxs, h⟩ := Option.bind_eq_some_iff.mp h
    obtain ⟨rfl, rfl⟩ := Prod.mk.inj (Option.some.inj h)
    obtain ⟨w₂, hw₂, hmore⟩ := skipSpace_split more
    obtain ⟨ts, hts, hspell⟩ := hitems hxs hw₂
    refine ⟨_, ?_, .cons ⟨w, t, w', x⟩ ⟨hw, hw'⟩ ht hspell⟩
    rw [hafter, heq, hmore, hts]
    simp [Element.chars]
  · cases h

theorem fields_of_readFields
    (hfields : ∀ {cs fs rest w}, readFields n cs = some (fs, rest) → Spaces w →
      ∃ t, w ++ cs = t ++ '\x7d' :: rest ∧ SpellsFields t fs)
    (h : readFields (n + 1) cs = some (fs, rest)) (hw : Spaces w) :
    ∃ t, w ++ cs = t ++ '\x7d' :: rest ∧ SpellsFields t fs := by
  simp only [readFields, Option.bind_eq_bind] at h
  split at h
  · obtain ⟨⟨k, after⟩, hk, hcolon⟩ := Option.bind_eq_some_iff.mp h
    clear h
    obtain ⟨q, rfl, hq⟩ := quoted_of_readQuoted hk
    obtain ⟨w₁, hw₁, hafter⟩ := skipSpace_split after
    split at hcolon
    · rename_i colon heq
      obtain ⟨⟨x, behind⟩, hx, hend⟩ := Option.bind_eq_some_iff.mp hcolon
      obtain ⟨w₂, hw₂, hgap⟩ := skipSpace_split colon
      obtain ⟨t, ht, hspell⟩ := hvalue hx
      obtain ⟨w₃, hw₃, hbehind⟩ := skipSpace_split behind
      have hpad : Member.Padded ⟨w, q, k, w₁, ⟨w₂, t, w₃, x⟩⟩ := ⟨hw, hq, hw₁, hw₂, hw₃⟩
      split at hend
      · rename_i hbrace
        obtain ⟨rfl, rfl⟩ := Prod.mk.inj (Option.some.inj hend)
        refine ⟨_, ?_, .one _ hpad hspell⟩
        rw [hafter, heq, hgap, ht, hbehind, hbrace]
        simp [Member.chars, Element.chars]
      · rename_i more hcomma
        obtain ⟨⟨fs, r⟩, hfs, hend⟩ := Option.bind_eq_some_iff.mp hend
        obtain ⟨rfl, rfl⟩ := Prod.mk.inj (Option.some.inj hend)
        obtain ⟨w₄, hw₄, hmore⟩ := skipSpace_split more
        obtain ⟨ts, hts, hspells⟩ := hfields hfs hw₄
        refine ⟨_, ?_, .cons _ hpad hspell hspells⟩
        rw [hafter, heq, hgap, ht, hbehind, hcomma, hmore, hts]
        simp [Member.chars, Element.chars]
      · cases hend
    · cases hcolon
  · cases h

omit hvalue

/-- What is read is a text of the grammar. -/
theorem spells_of_readValue (h : readValue n cs = some (v, rest)) :
    ∃ t, cs = t ++ rest ∧ Spells t v := by
  suffices hall : ∀ n, (∀ {cs v rest}, readValue n cs = some (v, rest) →
        ∃ t, cs = t ++ rest ∧ Spells t v) ∧
      (∀ {cs vs rest w}, readItems n cs = some (vs, rest) → Spaces w →
        ∃ t, w ++ cs = t ++ ']' :: rest ∧ SpellsItems t vs) ∧
      (∀ {cs fs rest w}, readFields n cs = some (fs, rest) → Spaces w →
        ∃ t, w ++ cs = t ++ '\x7d' :: rest ∧ SpellsFields t fs) from (hall n).1 h
  clear h
  intro n
  induction n with
  | zero => simp [readValue, readItems, readFields]
  | succ n ih =>
    obtain ⟨hvalue, hitems, hfields⟩ := ih
    refine ⟨fun {cs v rest} h => ?_, items_of_readItems hvalue hitems,
      fields_of_readFields hvalue hfields⟩
    rw [readValue.eq_def] at h
    dsimp only at h
    split at h
    · obtain ⟨⟨k, r⟩, hread, h⟩ := Option.map_eq_some_iff.mp h
      obtain ⟨rfl, rfl⟩ := Prod.mk.inj h
      obtain ⟨q, rfl, hq⟩ := quoted_of_readQuoted hread
      exact ⟨'"' :: (q ++ ['"']), by simp, .str hq⟩
    · rename_i cs
      obtain ⟨w, hw, hcs⟩ := skipSpace_split cs
      split at h
      · rename_i hend
        obtain ⟨rfl, rfl⟩ := Prod.mk.inj (Option.some.inj h)
        exact ⟨'[' :: (w ++ [']']), by rw [hcs, hend]; simp, .emptyArr hw⟩
      · obtain ⟨⟨vs, r⟩, hread, h⟩ := Option.map_eq_some_iff.mp h
        obtain ⟨rfl, rfl⟩ := Prod.mk.inj h
        obtain ⟨t, ht, hspell⟩ := hitems hread hw
        exact ⟨'[' :: (t ++ [']']), by rw [hcs, ht]; simp, hspell.arr⟩
    · rename_i cs
      obtain ⟨w, hw, hcs⟩ := skipSpace_split cs
      split at h
      · rename_i hend
        obtain ⟨rfl, rfl⟩ := Prod.mk.inj (Option.some.inj h)
        exact ⟨'\x7b' :: (w ++ ['\x7d']), by rw [hcs, hend]; simp, .emptyObj hw⟩
      · obtain ⟨⟨fs, r⟩, hread, h⟩ := Option.map_eq_some_iff.mp h
        obtain ⟨rfl, rfl⟩ := Prod.mk.inj h
        obtain ⟨t, ht, hspell⟩ := hfields hread hw
        exact ⟨'\x7b' :: (t ++ ['\x7d']), by rw [hcs, ht]; simp, hspell.obj⟩
    · obtain ⟨rfl, rfl⟩ := Prod.mk.inj (Option.some.inj h)
      exact ⟨"true".toList, rfl, .true⟩
    · obtain ⟨rfl, rfl⟩ := Prod.mk.inj (Option.some.inj h)
      exact ⟨"false".toList, rfl, .false⟩
    · obtain ⟨rfl, rfl⟩ := Prod.mk.inj (Option.some.inj h)
      exact ⟨"null".toList, rfl, .null⟩
    · obtain ⟨⟨x, r⟩, hread, h⟩ := Option.map_eq_some_iff.mp h
      obtain ⟨rfl, rfl⟩ := Prod.mk.inj h
      obtain ⟨t, rfl, hx⟩ := numeral_of_readNumber hread
      exact ⟨t, rfl, .num hx⟩

end Sound

section Complete

variable {cs rest t : List Char} {n : Nat} {v : Json} {es : List Element} {ms : List Member}

/-- The text of a value, in front of any text that is no part of a number, is read as the value. -/
def Reads (t : List Char) (v : Json) : Prop :=
  ∀ n rest, t.length < n → EndsNumber rest → readValue n (t ++ rest) = some (v, rest)

theorem Numeral.head {x : Number} (h : Numeral t x) :
    ∃ c cs, t = c :: cs ∧ (c.isDigit ∨ c = '-') := by
  cases h with
  | mk hm hw _ _ =>
    obtain ⟨c, cs, rfl, hc⟩ := hw.head
    simp only [List.mem_cons, List.not_mem_nil, or_false, Prod.mk.injEq] at hm
    rcases hm with ⟨rfl, -⟩ | ⟨rfl, -⟩
    · exact ⟨c, _, rfl, .inl hc⟩
    · exact ⟨'-', _, rfl, .inr rfl⟩

theorem Spells.head (h : Spells t v) :
    ∃ c cs, t = c :: cs ∧ isSpace c = Bool.false ∧ c ≠ ']' := by
  cases h with
  | null => exact ⟨'n', _, rfl, by decide⟩
  | true => exact ⟨'t', _, rfl, by decide⟩
  | false => exact ⟨'f', _, rfl, by decide⟩
  | str _ => exact ⟨'"', _, rfl, by decide⟩
  | emptyArr _ | arr _ _ _ => exact ⟨'[', _, rfl, by decide⟩
  | emptyObj _ | obj _ _ _ => exact ⟨'\x7b', _, rfl, by decide⟩
  | num hx =>
    obtain ⟨c, cs, rfl, hc⟩ := hx.head
    exact ⟨c, cs, rfl, head_number hc⟩

theorem Spells.skipSpace (h : Spells t v) : skipSpace (t ++ rest) = t ++ rest := by
  obtain ⟨c, cs, rfl, hc, -⟩ := h.head
  rw [List.cons_append, skipSpace_cons hc]

theorem Element.skipSpace {e : Element} (hpad : e.Padded) (hspell : Spells e.text e.value) :
    skipSpace (e.chars ++ rest) = e.text ++ (e.after ++ rest) := by
  rw [Element.chars, List.append_assoc, List.append_assoc, skipSpace_append hpad.before,
    hspell.skipSpace]

theorem readItems_last {after : List Char} (hv : readValue n cs = some (v, after))
    (hend : skipSpace after = ']' :: rest) : readItems (n + 1) cs = some ([v], rest) := by
  simp [readItems, hv, hend]

theorem readItems_next {after more : List Char} {vs : List Json}
    (hv : readValue n cs = some (v, after)) (hcomma : skipSpace after = ',' :: more)
    (hmore : readItems n (skipSpace more) = some (vs, rest)) :
    readItems (n + 1) cs = some (v :: vs, rest) := by
  simp [readItems, hv, hcomma, hmore]

theorem readItems_elements (rest : List Char) (hne : es ≠ []) (hpad : ∀ e ∈ es, e.Padded)
    (hspell : ∀ e ∈ es, Spells e.text e.value) (hread : ∀ e ∈ es, Reads e.text e.value)
    (hn : (commas (es.map Element.chars)).length + 1 < n) :
    readItems n (skipSpace (commas (es.map Element.chars) ++ ']' :: rest)) =
      some (es.map Element.value, rest) := by
  induction es generalizing n with
  | nil => exact absurd rfl hne
  | cons e es ih =>
    obtain ⟨n, rfl⟩ := Nat.exists_eq_add_one_of_ne_zero (Nat.ne_zero_of_lt hn)
    rw [List.forall_mem_cons] at hpad hspell hread
    cases es with
    | nil =>
      simp only [List.map_singleton, commas_singleton] at hn ⊢
      rw [Element.skipSpace hpad.1 hspell.1]
      refine readItems_last (hread.1 n _ ?_ ?_) ?_
      · simp only [Element.chars, List.length_append] at hn
        omega
      · exact endsNumber_space hpad.1.after (endsNumber_cons (by decide))
      · rw [skipSpace_append hpad.1.after, skipSpace_cons rfl]
    | cons e' es =>
      have hcommas : commas ((e :: e' :: es).map Element.chars) =
          e.chars ++ ',' :: commas ((e' :: es).map Element.chars) := commas_cons (by simp)
      rw [hcommas] at hn ⊢
      simp only [Element.chars, List.length_append, List.length_cons] at hn
      rw [List.append_assoc, Element.skipSpace hpad.1 hspell.1, List.cons_append]
      refine readItems_next (hread.1 n _ (by omega) ?_) ?_
        (ih (by simp) hpad.2 hspell.2 hread.2 (by omega))
      · exact endsNumber_space hpad.1.after (endsNumber_cons (by decide))
      · rw [skipSpace_append hpad.1.after, skipSpace_cons rfl]

/-- The key of a field is read up to the colon behind it. -/
theorem Member.readQuoted {m : Member} (hpad : m.Padded) (rest : List Char) :
    ∃ cs after, skipSpace (m.chars ++ rest) = '"' :: cs ∧
      readQuoted (cs.length + 1) cs = some (m.name, after) ∧
      skipSpace after = ':' :: (m.element.chars ++ rest) := by
  refine ⟨m.key ++ '"' :: (m.after ++ ':' :: (m.element.chars ++ rest)), _, ?_,
    hpad.key.readQuoted (by rw [List.length_append]; omega), ?_⟩
  · simp only [Member.chars, List.append_assoc, List.cons_append]
    rw [skipSpace_append hpad.before, skipSpace_cons rfl]
  · rw [skipSpace_append hpad.after, skipSpace_cons rfl]

theorem readFields_last {k r colon after : List Char}
    (hk : readQuoted (cs.length + 1) cs = some (k, r)) (hr : skipSpace r = ':' :: colon)
    (hv : readValue n (skipSpace colon) = some (v, after))
    (hend : skipSpace after = '\x7d' :: rest) :
    readFields (n + 1) ('"' :: cs) = some ([(String.ofList k, v)], rest) := by
  simp [readFields, hk, hr, hv, hend]

theorem readFields_next {k r colon after more : List Char} {fs : List (String × Json)}
    (hk : readQuoted (cs.length + 1) cs = some (k, r)) (hr : skipSpace r = ':' :: colon)
    (hv : readValue n (skipSpace colon) = some (v, after)) (hcomma : skipSpace after = ',' :: more)
    (hmore : readFields n (skipSpace more) = some (fs, rest)) :
    readFields (n + 1) ('"' :: cs) = some ((String.ofList k, v) :: fs, rest) := by
  simp [readFields, hk, hr, hv, hcomma, hmore]

theorem readFields_members (rest : List Char) (hne : ms ≠ []) (hpad : ∀ m ∈ ms, m.Padded)
    (hspell : ∀ m ∈ ms, Spells m.element.text m.element.value)
    (hread : ∀ m ∈ ms, Reads m.element.text m.element.value)
    (hn : (commas (ms.map Member.chars)).length + 1 < n) :
    readFields n (skipSpace (commas (ms.map Member.chars) ++ '\x7d' :: rest)) =
      some (ms.map Member.field, rest) := by
  induction ms generalizing n with
  | nil => exact absurd rfl hne
  | cons m ms ih =>
    obtain ⟨n, rfl⟩ := Nat.exists_eq_add_one_of_ne_zero (Nat.ne_zero_of_lt hn)
    rw [List.forall_mem_cons] at hpad hspell hread
    have hafter := hpad.1.element.after
    cases ms with
    | nil =>
      simp only [List.map_singleton, commas_singleton] at hn ⊢
      obtain ⟨cs, r, hcs, hk, hr⟩ := Member.readQuoted hpad.1 ('\x7d' :: rest)
      rw [hcs]
      simp only [Member.chars, Element.chars, List.length_append, List.length_cons] at hn
      have hv := hread.1 n (m.element.after ++ '\x7d' :: rest) (by omega)
        (endsNumber_space hafter (endsNumber_cons (by decide)))
      rw [← Element.skipSpace hpad.1.element hspell.1] at hv
      exact readFields_last hk hr hv (by rw [skipSpace_append hafter, skipSpace_cons rfl])
    | cons m' ms =>
      have hcommas : commas ((m :: m' :: ms).map Member.chars) =
          m.chars ++ ',' :: commas ((m' :: ms).map Member.chars) := commas_cons (by simp)
      rw [hcommas] at hn ⊢
      simp only [Member.chars, Element.chars, List.length_append, List.length_cons] at hn
      obtain ⟨cs, r, hcs, hk, hr⟩ := Member.readQuoted hpad.1
        (',' :: (commas ((m' :: ms).map Member.chars) ++ '\x7d' :: rest))
      rw [List.append_assoc, List.cons_append, hcs]
      have hv := hread.1 n
        (m.element.after ++ ',' :: (commas ((m' :: ms).map Member.chars) ++ '\x7d' :: rest))
        (by omega) (endsNumber_space hafter (endsNumber_cons (by decide)))
      rw [← Element.skipSpace hpad.1.element hspell.1] at hv
      exact readFields_next hk hr hv (by rw [skipSpace_append hafter, skipSpace_cons rfl])
        (ih (by simp) hpad.2 hspell.2 hread.2 (by omega))

theorem head_elements (rest : List Char) (hne : es ≠ []) (hpad : ∀ e ∈ es, e.Padded)
    (hspell : ∀ e ∈ es, Spells e.text e.value) :
    ∃ c cs, skipSpace (commas (es.map Element.chars) ++ ']' :: rest) = c :: cs ∧ c ≠ ']' := by
  obtain ⟨e, es, rfl⟩ := List.exists_cons_of_ne_nil hne
  obtain ⟨more, hmore⟩ := commas_head e.chars (es.map Element.chars)
  have he := hspell e List.mem_cons_self
  obtain ⟨c, cs, ht, -, hc⟩ := he.head
  rw [List.map_cons, hmore, List.append_assoc, Element.skipSpace (hpad e List.mem_cons_self) he, ht]
  exact ⟨c, _, rfl, hc⟩

theorem head_members (rest : List Char) (hne : ms ≠ []) (hpad : ∀ m ∈ ms, m.Padded) :
    ∃ cs, skipSpace (commas (ms.map Member.chars) ++ '\x7d' :: rest) = '"' :: cs := by
  obtain ⟨m, ms, rfl⟩ := List.exists_cons_of_ne_nil hne
  obtain ⟨more, hmore⟩ := commas_head m.chars (ms.map Member.chars)
  obtain ⟨cs, -, hcs, -⟩ :=
    Member.readQuoted (hpad m List.mem_cons_self) (more ++ '\x7d' :: rest)
  rw [List.map_cons, hmore, List.append_assoc]
  exact ⟨cs, hcs⟩

/-- Every text of the grammar is read. -/
theorem Spells.reads (h : Spells t v) : Reads t v := by
  induction h with
  | null | true | false =>
    intro n rest hn _
    obtain ⟨n, rfl⟩ := Nat.exists_eq_add_one_of_ne_zero (Nat.ne_zero_of_lt hn)
    rfl
  | num hx =>
    intro n rest hn hr
    obtain ⟨n, rfl⟩ := Nat.exists_eq_add_one_of_ne_zero (Nat.ne_zero_of_lt hn)
    have hread := hx.readNumber hr
    obtain ⟨c, cs, rfl, hc⟩ := hx.head
    rw [List.cons_append] at hread ⊢
    rw [readValue_number hc, hread]
    rfl
  | @str q cs hq =>
    intro n rest hn _
    obtain ⟨n, rfl⟩ := Nat.exists_eq_add_one_of_ne_zero (Nat.ne_zero_of_lt hn)
    have hread : readQuoted ((q ++ '"' :: rest).length + 1) (q ++ '"' :: rest) = some (cs, rest) :=
      hq.readQuoted (by rw [List.length_append]; omega)
    have hlist : '"' :: (q ++ ['"']) ++ rest = '"' :: (q ++ '"' :: rest) := by simp
    rw [hlist, readValue, hread]
    rfl
  | emptyArr hw =>
    intro n rest hn _
    obtain ⟨n, rfl⟩ := Nat.exists_eq_add_one_of_ne_zero (Nat.ne_zero_of_lt hn)
    simp [readValue, skipSpace_append hw, skipSpace_cons (c := ']') rfl]
  | @arr es hne hpad hspell ih =>
    intro n rest hn _
    obtain ⟨n, rfl⟩ := Nat.exists_eq_add_one_of_ne_zero (Nat.ne_zero_of_lt hn)
    simp only [List.length_cons, List.length_append, List.length_nil] at hn
    have hread := readItems_elements rest hne hpad hspell ih (n := n) (by omega)
    obtain ⟨c, cs, hcs, hc⟩ := head_elements rest hne hpad hspell
    rw [hcs] at hread
    simp [readValue, hcs, hc, hread]
  | emptyObj hw =>
    intro n rest hn _
    obtain ⟨n, rfl⟩ := Nat.exists_eq_add_one_of_ne_zero (Nat.ne_zero_of_lt hn)
    simp [readValue, skipSpace_append hw, skipSpace_cons (c := '\x7d') rfl]
  | @obj ms hne hpad hspell ih =>
    intro n rest hn _
    obtain ⟨n, rfl⟩ := Nat.exists_eq_add_one_of_ne_zero (Nat.ne_zero_of_lt hn)
    simp only [List.length_cons, List.length_append, List.length_nil] at hn
    have hread := readFields_members rest hne hpad hspell ih (n := n) (by omega)
    obtain ⟨cs, hcs⟩ := head_members rest hne hpad
    rw [hcs] at hread
    simp [readValue, hcs, hread]

end Complete

/-- The reader accepts exactly the texts of the grammar, with their values. -/
theorem read?_eq_some_iff {s : String} {v : Json} : read? s = some v ↔ Denotes s v := by
  simp only [read?, readChars, Option.bind_eq_bind, Option.bind_eq_some_iff]
  constructor
  · rintro ⟨⟨x, rest⟩, hread, h⟩
    dsimp only at h
    rw [Option.ite_none_right_eq_some] at h
    obtain ⟨hend, h⟩ := h
    obtain rfl := Option.some.inj h
    obtain ⟨w, hw, hs⟩ := skipSpace_split s.toList
    obtain ⟨t, ht, hspell⟩ := spells_of_readValue hread
    obtain ⟨w', hw', hrest⟩ := skipSpace_split rest
    refine ⟨⟨w, t, w', x⟩, ⟨hw, hw'⟩, hspell, ?_, rfl⟩
    rw [hend, List.append_nil] at hrest
    rw [hs, ht, hrest, Element.chars]
  · rintro ⟨e, hpad, hspell, hs, rfl⟩
    have hskip : skipSpace s.toList = e.text ++ e.after := by
      rw [hs, ← List.append_nil e.chars, Element.skipSpace hpad hspell, List.append_nil]
    have hends : EndsNumber e.after := by
      rw [← List.append_nil e.after]
      exact endsNumber_space hpad.after (by simp [EndsNumber])
    have hlength : e.text.length < s.toList.length + 1 := by
      rw [hs, Element.chars]
      simp only [List.length_append]
      omega
    refine ⟨(e.value, e.after), ?_, if_pos ?_⟩
    · rw [hskip]
      exact hspell.reads _ _ hlength hends
    · rw [← List.append_nil e.after, skipSpace_append hpad.after]
      rfl

end StoryFlow.Json
