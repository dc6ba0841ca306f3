import StoryFlow.Proofs.Text.Identifier

/-! # Slugs are normal forms

A slug is nothing, or words of lower-case letters and digits with single underscores between them.
Cutting such a text finds its words again, so the slugs are exactly the texts that are their own
slug.
-/

namespace StoryFlow.Text

/-- Words of lower-case letters and digits, with single underscores between them. -/
def IsSlug (s : String) : Prop :=
  ∃ words : List (List Char), (∀ w ∈ words, w ≠ [] ∧ ∀ c ∈ w, isSlugChar c) ∧
    s.toList = ['_'].intercalate words

section Words

variable {c : Char} {w cs rest : List Char} {words : List (List Char)}

theorem isWordChar_of_isSlugChar (h : isSlugChar c) : isWordChar c := by
  obtain hlower | hdigit := Bool.or_eq_true_iff.mp h
  · have hletter : c.isAlpha := Bool.or_eq_true_iff.mpr (.inr hlower)
    simp [isWordChar, Char.isAlphanum, hletter]
  · simp [isWordChar, Char.isAlphanum, hdigit]

theorem toLower_of_isSlugChar (h : isSlugChar c) : c.toLower = c := by
  rw [isSlugChar] at h
  delta Char.isLower Char.isDigit at h
  simp only [Bool.or_eq_true, Bool.and_eq_true, decide_eq_true_eq, UInt32.le_iff_toNat_le,
    ge_iff_le] at h
  change (97 ≤ c.toNat ∧ c.toNat ≤ 122) ∨ (48 ≤ c.toNat ∧ c.toNat ≤ 57) at h
  refine dif_neg fun hu => ?_
  simp only [UInt32.le_iff_toNat_le, ge_iff_le] at hu
  change 65 ≤ c.toNat ∧ c.toNat ≤ 90 at hu
  omega

theorem slugWords_skip (h : ¬ isSlugChar c) (cs : List Char) :
    slugWords (c :: cs) = slugWords cs := by
  cases cs <;> simp [slugWords, h]

/-- A word ends where no letter or digit follows. -/
theorem slugWords_append (hne : w ≠ []) (hw : ∀ c ∈ w, isSlugChar c)
    (hrest : ∀ c ∈ rest.head?, ¬ isSlugChar c) :
    slugWords (w ++ rest) = w :: slugWords rest := by
  induction w with
  | nil => exact absurd rfl hne
  | cons c w ih =>
    obtain ⟨hc, hw⟩ := List.forall_mem_cons.mp hw
    cases w with
    | nil =>
      cases rest with
      | nil => simp [slugWords, hc]
      | cons d rest =>
        have hd : ¬ isSlugChar d := hrest d rfl
        simp [slugWords, hc, hd]
    | cons d w =>
      have hd := hw d List.mem_cons_self
      have hcut := ih (List.cons_ne_nil d w) hw
      rw [List.cons_append] at hcut
      rw [List.cons_append, List.cons_append, slugWords, if_pos hc]
      simp only [hd, if_true, hcut]

theorem slugWords_filled (cs : List Char) :
    ∀ w ∈ slugWords cs, w ≠ [] ∧ ∀ c ∈ w, isSlugChar c := by
  fun_induction slugWords cs with
  | case1 => simp
  | case2 c hc => simpa using hc
  | case3 c hc d cs hd hnone ih =>
    rw [hnone]
    simpa using hc
  | case4 c hc d cs hd w ws hwords ih =>
    rw [hwords] at ih ⊢
    obtain ⟨⟨-, hw⟩, hws⟩ := List.forall_mem_cons.mp ih
    exact List.forall_mem_cons.mpr
      ⟨⟨List.cons_ne_nil c w, List.forall_mem_cons.mpr ⟨hc, hw⟩⟩, hws⟩
  | case5 c hc d cs hd ih =>
    exact List.forall_mem_cons.mpr ⟨⟨List.cons_ne_nil c [], by simpa using hc⟩, ih⟩
  | case6 c cs hc ih => exact ih

/-- Words that are joined are cut again. -/
theorem slugWords_intercalate (h : ∀ w ∈ words, w ≠ [] ∧ ∀ c ∈ w, isSlugChar c) :
    slugWords (['_'].intercalate words) = words := by
  induction words with
  | nil => rfl
  | cons w words ih =>
    obtain ⟨⟨hne, hw⟩, hwords⟩ := List.forall_mem_cons.mp h
    cases words with
    | nil =>
      have hrest : ∀ c ∈ ([] : List Char).head?, ¬ isSlugChar c := by simp
      simpa [slugWords] using slugWords_append hne hw hrest
    | cons v words =>
      rw [List.intercalate_cons_cons, List.append_assoc, List.singleton_append,
        slugWords_append hne hw (by simp; decide), slugWords_skip (by decide), ih hwords]

end Words

variable {s : String}

theorem isSlug_slugify (s : String) : IsSlug (slugify s) :=
  ⟨_, slugWords_filled _, String.toList_ofList⟩

/-- A slug is the underscore beside lower-case letters and digits. -/
theorem IsSlug.chars (h : IsSlug s) : ∀ c ∈ s.toList, c = '_' ∨ isSlugChar c := by
  obtain ⟨words, hwords, hs⟩ := h
  rw [hs]
  clear hs
  induction words with
  | nil => simp
  | cons w words ih =>
    obtain ⟨⟨-, hw⟩, hwords⟩ := List.forall_mem_cons.mp hwords
    cases words with
    | nil => exact fun c hc => .inr (hw c (by simpa using hc))
    | cons v words =>
      rw [List.intercalate_cons_cons, List.append_assoc]
      intro c hc
      rcases List.mem_append.mp hc with hc | hc
      · exact .inr (hw c hc)
      · rcases List.mem_cons.mp hc with rfl | hc
        · exact .inl rfl
        · exact ih hwords c hc

theorem IsSlug.isWord (h : IsSlug s) : IsWord s := by
  intro c hc
  rcases h.chars c hc with rfl | hc
  · decide
  · exact isWordChar_of_isSlugChar hc

/-- A slug is its own slug. -/
theorem slugify_of_isSlug (h : IsSlug s) : slugify s = s := by
  have hascii : transliterate s.toList = s.toList :=
    transliterate_of_ascii fun c hc => (toNat_of_isWordChar (h.isWord c hc)).2
  have hlower : s.toList.map Char.toLower = s.toList := by
    refine (List.map_congr_left fun c hc => ?_).trans (List.map_id _)
    rcases h.chars c hc with rfl | hc
    · decide
    · exact toLower_of_isSlugChar hc
  obtain ⟨words, hwords, hs⟩ := h
  rw [slugify, onChars, slug, hascii, hlower, hs, slugWords_intercalate hwords, ← hs,
    String.ofList_toList]

/-- Slugs and identifiers are normal forms: a slug is words of lower-case letters and digits with
single underscores between them, an identifier consists of letters, digits and underscores, and
these texts, and no others, are left as they are. -/
theorem names_normal (s : String) :
    (IsSlug (slugify s) ∧ slugify (slugify s) = slugify s ∧ (slugify s = s ↔ IsSlug s)) ∧
    IsWord (identifier s) ∧ identifier (identifier s) = identifier s ∧
      (identifier s = s ↔ IsWord s) := by
  refine ⟨⟨isSlug_slugify s, slugify_of_isSlug (isSlug_slugify s), fun h => ?_,
    slugify_of_isSlug⟩, isWord_identifier s, identifier_of_isWord (isWord_identifier s),
    fun h => ?_, identifier_of_isWord⟩
  · exact h ▸ isSlug_slugify s
  · exact h ▸ isWord_identifier s

example : slugify "  Hit points: (max.)" = "hit_points_max" := by decide +kernel

end StoryFlow.Text
