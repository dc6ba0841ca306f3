import StoryFlow.Proofs.Text.Replace
import StoryFlow.Proofs.Text.Runs
import StoryFlow.Text.Markup

/-! # Escaped texts as rich texts

A text becomes a rich text when its signs of markup are written as entities. It holds no tag then,
and the entities are read one after another. Those that stand for its signs are read back, but the
ampersands come first, so an entity that the text itself spells out is read as well: the text comes
back exactly when it spells none, other than that of the ampersand.
-/

namespace StoryFlow.Markup

open Text

/-- The text of an entity, and the character that it stands for. -/
abbrev Entity := List Char × Char

def Entity.read (e : Entity) (cs : List Char) : List Char :=
  substitute (literal e.1) [e.2] cs

/-- The entity of a character among some entities, or else the character. -/
def spell (es : List Entity) (c : Char) : List Char :=
  ((es.find? (·.2 = c)).map Prod.fst).getD [c]

/-- A text with the characters of some entities written as these. -/
def spelled (es : List Entity) (cs : List Char) : List Char :=
  cs.flatMap (spell es)

/-- An entity that can be read among others: only the first character of its text is an ampersand,
none is written as another entity, and its text and those of the others are no starts of each
other. -/
structure Separate (e : Entity) (es : List Entity) : Prop where
  head : e.1 = '&' :: e.1.tail
  tail : '&' ∉ e.1.tail
  plain : ∀ f ∈ es, f.2 ∉ e.2 :: e.1
  others : ∀ f ∈ es, f.1 = '&' :: f.1.tail ∧ '&' ∉ f.1.tail
  apart : ∀ f ∈ es, ¬ e.1 <+: f.1 ∧ ¬ f.1 <+: e.1

section Spelled

variable {e : Entity} {es : List Entity} {cs word : List Char} {c : Char}

theorem spell_of_not_mem (h : c ∉ es.map Prod.snd) : spell es c = [c] := by
  have hnone : es.find? (·.2 = c) = none :=
    List.find?_eq_none.mpr fun e he hc => h (List.mem_map.mpr ⟨e, he, by simpa using hc⟩)
  rw [spell, hnone]
  rfl

theorem exists_spell_eq (h : c ∈ es.map Prod.snd) : ∃ e ∈ es, e.2 = c ∧ spell es c = e.1 := by
  have hsome : (es.find? (·.2 = c)).isSome := by
    obtain ⟨e, he, hc⟩ := List.mem_map.mp h
    exact List.find?_isSome.mpr ⟨e, he, by simpa using hc⟩
  obtain ⟨e, he⟩ := Option.isSome_iff_exists.mp hsome
  refine ⟨e, List.mem_of_find?_eq_some he, by simpa using List.find?_some he, ?_⟩
  rw [spell, he]
  rfl

theorem spelled_cons (es : List Entity) (c : Char) (cs : List Char) :
    spelled es (c :: cs) = spell es c ++ spelled es cs :=
  List.flatMap_cons

theorem spelled_append_of_plain (h : ∀ c ∈ word, c ∉ es.map Prod.snd) (cs : List Char) :
    spelled es (word ++ cs) = word ++ spelled es cs := by
  induction word with
  | nil => rfl
  | cons c word ih =>
    rw [List.forall_mem_cons] at h
    rw [List.cons_append, spelled_cons, spell_of_not_mem h.1, ih h.2, List.singleton_append,
      List.cons_append]

/-- Where a word without an ampersand starts a spelled text, it starts the text. -/
theorem prefix_of_prefix_spelled (hes : ∀ f ∈ es, f.1 = '&' :: f.1.tail) (hw : '&' ∉ word)
    (h : word <+: spelled es cs) : word <+: cs := by
  induction word generalizing cs with
  | nil => exact List.nil_prefix
  | cons b word ih =>
    rw [List.mem_cons, not_or] at hw
    cases cs with
    | nil => exact absurd h (by simp [spelled])
    | cons c cs =>
      rw [spelled_cons] at h
      by_cases hc : c ∈ es.map Prod.snd
      · obtain ⟨f, hf, -, hspell⟩ := exists_spell_eq hc
        rw [hspell, hes f hf, List.cons_append, List.cons_prefix_cons] at h
        exact absurd h.1.symm hw.1
      · rw [spell_of_not_mem hc, List.singleton_append, List.cons_prefix_cons] at h
        exact List.cons_prefix_cons.mpr ⟨h.1, ih hw.2 h.2⟩

end Spelled

namespace Separate

variable {e f : Entity} {es : List Entity} {cs : List Char} {c : Char}

theorem ne_nil (h : Separate e es) : e.1 ≠ [] :=
  h.head ▸ List.cons_ne_nil _ _

theorem not_mem_map (h : Separate e es) : ∀ c ∈ e.2 :: e.1, c ∉ es.map Prod.snd := by
  intro c hc hm
  obtain ⟨f, hf, rfl⟩ := List.mem_map.mp hm
  exact h.plain f hf hc

/-- The text of the entity stands at no start of that of another. -/
theorem not_prefix_append (h : Separate e es) (hf : f ∈ es) (cs : List Char) :
    ¬ e.1 <+: f.1 ++ cs := by
  intro hp
  obtain ⟨hef, hfe⟩ := h.apart f hf
  exact (List.prefix_or_prefix_of_prefix hp (List.prefix_append f.1 cs)).elim hef hfe

/-- Where the text of the entity starts a spelled text, it starts the text. -/
theorem prefix_of_spelled (h : Separate e es) (hp : e.1 <+: spelled es cs) : e.1 <+: cs := by
  cases cs with
  | nil => exact hp
  | cons c cs =>
    rw [spelled_cons] at hp
    by_cases hc : c ∈ es.map Prod.snd
    · obtain ⟨f, hf, -, hspell⟩ := exists_spell_eq hc
      rw [hspell] at hp
      exact absurd hp (h.not_prefix_append hf _)
    · rw [spell_of_not_mem hc, List.singleton_append, h.head, List.cons_prefix_cons] at hp
      rw [h.head, List.cons_prefix_cons]
      exact ⟨hp.1, prefix_of_prefix_spelled (fun f hf => (h.others f hf).1) h.tail hp.2⟩

/-- Reading passes over the texts of other entities. -/
theorem read_append (h : Separate e es) (hf : f ∈ es) (cs : List Char) :
    e.read (f.1 ++ cs) = f.1 ++ e.read cs := by
  have hnot := h.not_prefix_append hf cs
  obtain ⟨hhead, htail⟩ := h.others f hf
  have hstay : ∀ c ∈ f.1.tail, ∀ ds, literal e.1 (c :: ds) = 0 := by
    intro c hc ds
    refine literal_eq_zero fun hp => htail ?_
    rw [h.head, List.cons_prefix_cons] at hp
    exact hp.1 ▸ hc
  rw [hhead, List.cons_append] at hnot ⊢
  rw [Entity.read, substitute_literal_cons hnot, substitute_append hstay]
  rfl

/-- An entity can be read before the others are. -/
theorem read_spelled (h : Separate e es) (cs : List Char) :
    e.read (spelled es cs) = spelled es (e.read cs) := by
  obtain ⟨hchar, htext⟩ := List.forall_mem_cons.mp h.not_mem_map
  induction cs using literal_induction h.ne_nil with
  | nil => rfl
  | found cs ih =>
    rw [spelled_append_of_plain htext, Entity.read, Entity.read,
      substitute_literal_append h.ne_nil, substitute_literal_append h.ne_nil,
      spelled_append_of_plain (List.forall_mem_singleton.mpr hchar)]
    exact congrArg _ ih
  | other c cs hp ih =>
    have hright : e.read (c :: cs) = c :: e.read cs := substitute_literal_cons hp _
    rw [hright, spelled_cons, spelled_cons, ← ih]
    by_cases hc : c ∈ es.map Prod.snd
    · obtain ⟨f, hf, -, hspell⟩ := exists_spell_eq hc
      rw [hspell, h.read_append hf]
    · have hnot : ¬ e.1 <+: spelled es (c :: cs) := fun hs => hp (h.prefix_of_spelled hs)
      rw [spelled_cons, spell_of_not_mem hc] at hnot
      rw [spell_of_not_mem hc]
      exact substitute_literal_cons hnot _

end Separate

section Reading

variable {e : Entity} {es : List Entity} {cs : List Char} {c : Char}

theorem spelled_singleton_self (e : Entity) (cs : List Char) :
    spelled [e] (e.2 :: cs) = e.1 ++ spelled [e] cs := by
  simp [spelled_cons, spell]

theorem spelled_singleton_of_ne (h : e.2 ≠ c) (cs : List Char) :
    spelled [e] (c :: cs) = c :: spelled [e] cs := by
  simp [spelled_cons, spell, h]

/-- To write a text with several entities is to write it with one and then with the others. -/
theorem spelled_spelled (h : Separate e es) (cs : List Char) :
    spelled es (spelled [e] cs) = spelled (e :: es) cs := by
  induction cs with
  | nil => rfl
  | cons c cs ih =>
    rw [spelled_cons (e :: es), ← ih]
    by_cases hc : e.2 = c
    · subst hc
      have hspell : spell (e :: es) e.2 = e.1 := by simp [spell]
      rw [spelled_singleton_self, hspell,
        spelled_append_of_plain (List.forall_mem_cons.mp h.not_mem_map).2]
    · have hspell : spell (e :: es) c = spell es c := by simp [spell, hc]
      rw [spelled_singleton_of_ne hc, spelled_cons, hspell]

/-- All ampersands are read back, and what comes out is not read again. -/
theorem read_spelled_ampersand (h : e.1 = '&' :: e.1.tail) (hc : e.2 = '&') (cs : List Char) :
    e.read (spelled [e] cs) = cs := by
  have hne : e.1 ≠ [] := h ▸ List.cons_ne_nil _ _
  induction cs with
  | nil => rfl
  | cons c cs ih =>
    rw [Entity.read] at ih ⊢
    by_cases hcc : e.2 = c
    · subst hcc
      rw [spelled_singleton_self, substitute_literal_append hne, ih, List.singleton_append]
    · have hnot : ¬ e.1 <+: c :: spelled [e] cs := by
        rw [h, List.cons_prefix_cons, ← hc]
        exact fun hp => hcc hp.1
      rw [spelled_singleton_of_ne hcc, substitute_literal_cons hnot, ih]

/-- Any other character is read back from its entity, as from a place where the text spells it. -/
theorem read_spelled_self (h : e.1 = '&' :: e.1.tail) (ht : '&' ∉ e.1.tail) (hc : e.2 ∉ e.1)
    (cs : List Char) : e.read (spelled [e] cs) = e.read cs := by
  have hne : e.1 ≠ [] := h ▸ List.cons_ne_nil _ _
  have hplain : ∀ c ∈ e.1, c ∉ [e].map Prod.snd := fun c hm hs =>
    hc (List.mem_singleton.mp hs ▸ hm)
  simp only [Entity.read]
  induction cs using literal_induction hne with
  | nil => rfl
  | found cs ih =>
    rw [spelled_append_of_plain hplain, substitute_literal_append hne,
      substitute_literal_append hne, ih]
  | other c cs hp ih =>
    rw [substitute_literal_cons hp, ← ih]
    by_cases hcc : e.2 = c
    · subst hcc
      rw [spelled_singleton_self, substitute_literal_append hne, List.singleton_append]
    · rw [spelled_singleton_of_ne hcc]
      refine substitute_literal_cons (fun hs => hp ?_) _
      rw [h, List.cons_prefix_cons] at hs ⊢
      exact ⟨hs.1, prefix_of_prefix_spelled (List.forall_mem_singleton.mpr h) ht hs.2⟩

/-- Entities that can be read one after another. -/
def Readable : List Entity → Prop
  | [] => True
  | e :: es => e.2 ∉ e.1 ∧ Separate e es ∧ Readable es

def readAll (es : List Entity) (cs : List Char) : List Char :=
  es.foldl (fun text e => e.read text) cs

theorem readAll_cons (e : Entity) (es : List Entity) (cs : List Char) :
    readAll (e :: es) cs = readAll es (e.read cs) := rfl

theorem readAll_append (es fs : List Entity) (cs : List Char) :
    readAll (es ++ fs) cs = readAll fs (readAll es cs) :=
  List.foldl_append

/-- A text is read as it is from a text in which characters other than ampersands are entities. -/
theorem readAll_spelled (h : Readable es) (cs : List Char) :
    readAll es (spelled es cs) = readAll es cs := by
  induction es generalizing cs with
  | nil =>
    have hspell : spell [] = fun c => [c] := funext fun c => rfl
    rw [spelled, hspell, List.flatMap_singleton']
  | cons e es ih =>
    obtain ⟨hc, hsep, hrest⟩ := h
    rw [readAll_cons, readAll_cons, ← spelled_spelled hsep, hsep.read_spelled, ih hrest,
      read_spelled_self hsep.head hsep.tail hc]

theorem readAll_eq_self (h : ∀ e ∈ es, ¬ e.1 <:+: cs) : readAll es cs = cs := by
  induction es with
  | nil => rfl
  | cons e es ih =>
    rw [List.forall_mem_cons] at h
    rw [readAll_cons, Entity.read, substitute_literal_eq_self h.1, ih h.2]

theorem Entity.length_read (h : 1 < e.1.length) (cs : List Char) :
    (e.read cs).length ≤ cs.length ∧ (e.1 <:+: cs → (e.read cs).length < cs.length) := by
  have hn : [e.2].length < e.1.length := h
  exact length_substitute_literal hn cs

theorem length_readAll_le (h : ∀ e ∈ es, 1 < e.1.length) (cs : List Char) :
    (readAll es cs).length ≤ cs.length := by
  induction es generalizing cs with
  | nil => exact Nat.le_refl _
  | cons e es ih =>
    rw [List.forall_mem_cons] at h
    exact (ih h.2 _).trans (Entity.length_read h.1 cs).1

/-- Every entity that is read makes the text shorter. -/
theorem not_infix_of_length_le (h : ∀ e ∈ es, 1 < e.1.length)
    (hl : cs.length ≤ (readAll es cs).length) : ∀ e ∈ es, ¬ e.1 <:+: cs := by
  induction es with
  | nil => exact List.forall_mem_nil _
  | cons e es ih =>
    rw [List.forall_mem_cons] at h
    have hrest := length_readAll_le h.2 (e.read cs)
    have hnot : ¬ e.1 <:+: cs := fun hin =>
      Nat.not_le.mpr ((Entity.length_read h.1 cs).2 hin) (hl.trans hrest)
    have hread : e.read cs = cs := substitute_literal_eq_self hnot _
    rw [readAll_cons, hread] at hl
    exact List.forall_mem_cons.mpr ⟨hnot, ih h.2 hl⟩

end Reading

section Escape

variable {cs : List Char}

/-- A character, with an entity in the place of a sign of markup. -/
def escapeChar : Char → List Char
  | '&' => "&amp;".toList
  | '<' => "&lt;".toList
  | '>' => "&gt;".toList
  | '"' => "&quot;".toList
  | '\'' => "&#39;".toList
  | c => [c]

def escapeChars (cs : List Char) : List Char :=
  cs.flatMap escapeChar

/-- A text as rich text. -/
def escape (s : String) : String :=
  onChars escapeChars s

/-- The entities of the signs other than the ampersand. -/
def signs : List Entity :=
  [("&lt;".toList, '<'), ("&gt;".toList, '>'), ("&quot;".toList, '"'), ("&#39;".toList, '\'')]

def ampersand : Entity :=
  ("&amp;".toList, '&')

theorem escapeChar_eq (c : Char) : escapeChar c = spell (ampersand :: signs) c := by
  unfold escapeChar
  split
  · rfl
  · rfl
  · rfl
  · rfl
  · rfl
  · exact (spell_of_not_mem (by simp_all [ampersand, signs])).symm

theorem separate_ampersand : Separate ampersand signs := by
  constructor <;> decide

theorem readable_signs : Readable signs := by
  refine ⟨by decide, ?_, by decide, ?_, by decide, ?_, by decide, ?_, trivial⟩ <;>
    constructor <;> decide

/-- The entities of an escaped text are read, and then those that the text itself spells, other
than that of the ampersand. -/
theorem readEntities_escape (cs : List Char) :
    readEntities (escapeChars cs) = readAll entities.tail cs := by
  have hescape : escapeChars cs = spelled signs (spelled [ampersand] cs) := by
    rw [spelled_spelled separate_ampersand, escapeChars, spelled, funext escapeChar_eq]
  have hread : readEntities (escapeChars cs) =
      readAll (signs ++ [("&nbsp;".toList, ' ')]) (ampersand.read (escapeChars cs)) := rfl
  have htail : entities.tail = signs ++ [("&nbsp;".toList, ' ')] := rfl
  rw [hread, htail, hescape, separate_ampersand.read_spelled,
    read_spelled_ampersand (by decide) rfl, readAll_append, readAll_append,
    readAll_spelled readable_signs]

theorem tags_eq_zero {c : Char} (h : c ≠ '<') (cs : List Char) :
    breakTag (c :: cs) = 0 ∧ paragraphBreak (c :: cs) = 0 ∧ anyTag (c :: cs) = 0 := by
  simp [breakTag, paragraphBreak, anyTag, h]

/-- A text without an angle bracket has no tags. -/
theorem stripTags_eq_self (h : '<' ∉ cs) : stripTags cs = cs := by
  have hzero (c : Char) (hc : c ∈ cs) := tags_eq_zero (c := c) fun he => h (he ▸ hc)
  rw [stripTags, substitute_eq_self fun c hc ds => (hzero c hc ds).1,
    substitute_eq_self fun c hc ds => (hzero c hc ds).2.1,
    substitute_eq_self fun c hc ds => (hzero c hc ds).2.2]

theorem bracket_not_mem_escape (cs : List Char) : '<' ∉ escapeChars cs := by
  intro h
  obtain ⟨c, -, hc⟩ := List.mem_flatMap.mp h
  rw [escapeChar_eq] at hc
  by_cases hs : c ∈ (ampersand :: signs).map Prod.snd
  · obtain ⟨e, he, -, hspell⟩ := exists_spell_eq hs
    rw [hspell] at hc
    exact absurd hc ((by decide : ∀ e ∈ ampersand :: signs, '<' ∉ e.1) e he)
  · rw [spell_of_not_mem hs, List.mem_singleton] at hc
    exact hs (hc ▸ by decide)

theorem stripChars_escape (cs : List Char) :
    stripChars (escapeChars cs) = trim (readAll entities.tail cs) := by
  rw [stripChars, stripTags_eq_self (bracket_not_mem_escape cs), readEntities_escape]

end Escape

/-- A text comes back from its rich text exactly when no blank stands at its start or its end and it
spells no entity other than that of the ampersand. -/
theorem strip_escape_iff (s : String) : strip (escape s) = s ↔
    ((∀ c ∈ s.toList.head?, isBlank c = false) ∧ ∀ c ∈ s.toList.getLast?, isBlank c = false) ∧
      ∀ e ∈ entities.tail, ¬ e.1 <:+: s.toList := by
  have hstrip : strip (escape s) = s ↔ trim (readAll entities.tail s.toList) = s.toList := by
    rw [strip, escape, onChars, onChars, String.toList_ofList, stripChars_escape]
    exact ⟨fun h => by rw [← String.toList_ofList (l := trim _), h],
      fun h => by rw [h, String.ofList_toList]⟩
  have hlong : ∀ e ∈ entities.tail, 1 < e.1.length := by decide
  rw [hstrip, ← trim_eq_self_iff]
  constructor
  · intro h
    have hle := length_trim_le (readAll entities.tail s.toList)
    rw [h] at hle
    have hnot := not_infix_of_length_le hlong hle
    exact ⟨by rwa [readAll_eq_self hnot] at h, hnot⟩
  · rintro ⟨htrim, hnot⟩
    rw [readAll_eq_self hnot, htrim]

/-- A text that spells an entity is taken for the character that the entity stands for. -/
theorem entity_misread :
    ((∀ c ∈ "&lt;".toList.head?, isBlank c = false) ∧
        ∀ c ∈ "&lt;".toList.getLast?, isBlank c = false) ∧
      escape "&lt;" = "&amp;lt;" ∧ strip (escape "&lt;") = "<" ∧ "<" ≠ "&lt;" := by
  refine ⟨⟨?_, ?_⟩, by decide +kernel⟩
  · intro c hc
    obtain rfl := Option.some.inj hc
    rfl
  · intro c hc
    obtain rfl := Option.some.inj hc
    rfl

end StoryFlow.Markup
