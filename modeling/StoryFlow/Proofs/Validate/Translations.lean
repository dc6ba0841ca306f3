import StoryFlow.Proofs.Assoc
import StoryFlow.Proofs.Validate.Checks

/-! # The report of missing translations

A text of the project may have any number of records in a locale, and it is untranslated there when
none of them is finished. The check counts the records that are not finished in the place of the
texts. So it misses the texts that have no record, and it counts too much where a text has such a
record beside another one. The report of a locale is right exactly when these are equally many.
-/

namespace StoryFlow

open Validate

/-- The text that a record translates: a field of something in the project. -/
def LocalizedText.source (t : LocalizedText) : String × String × String :=
  (t.sourceType, t.sourceId, t.sourceField)

namespace Localization

section Counts

variable (l : Localization) (locale : String) (s : String × String × String)

/-- The records of a text in a locale. -/
def records : List LocalizedText :=
  l.strings.filter fun t => t.locale = locale ∧ t.source = s

/-- No record of the text is finished. -/
def Untranslated : Prop :=
  ∀ t ∈ l.records locale s, isUntranslated t

instance : Decidable (l.Untranslated locale s) :=
  inferInstanceAs (Decidable (∀ t ∈ l.records locale s, isUntranslated t = true))

/-- How many records of a text are not finished. -/
def unfinished : Nat :=
  (l.records locale s).countP isUntranslated

/-- How many of them there are beyond the one that an untranslated text is counted for. -/
def spare : Nat :=
  l.unfinished locale s - if l.Untranslated locale s then 1 else 0

def untranslated : List (String × String × String) :=
  (sources l).filter fun s => l.Untranslated locale s

def unrecorded : List (String × String × String) :=
  (sources l).filter fun s => l.records locale s = []

def spareCount : Nat :=
  ((sources l).map (l.spare locale)).sum

/-- What a report should say of a locale: it names the locale when a text is untranslated there,
and then it gives the number of such texts among all texts. -/
structure ReportedRightly (findings : List Finding) : Prop where
  reported_iff : (∃ pending total, .unfinishedLocale locale pending total ∈ findings) ↔
    ∃ s ∈ sources l, l.Untranslated locale s
  counts : ∀ pending total, .unfinishedLocale locale pending total ∈ findings →
    pending = (l.untranslated locale).length ∧ total = (sources l).length ∧ pending ≤ total

end Counts

variable {l : Localization} {locale : String} {s : String × String × String}

theorem pendingCount_eq_sum (l : Localization) (locale : String) :
    pendingCount l locale = ((sources l).map (l.unfinished locale)).sum := by
  have hkeys : ∀ t ∈ l.strings, t.source ∈ sources l := fun t ht =>
    List.mem_eraseDups.mpr (List.mem_map_of_mem ht)
  have hd : (sources l).Nodup := Assoc.nodup_eraseDups _
  rw [pendingCount, Assoc.countP_eq_sum_keys _ LocalizedText.source hd hkeys]
  congr 1
  apply List.map_congr_left
  intro s _
  rw [unfinished, records, List.countP_filter]
  apply List.countP_congr
  intro t _
  simp only [Bool.and_eq_true, decide_eq_true_eq, beq_iff_eq]
  tauto

theorem unfinished_eq (l : Localization) (locale : String) (s : String × String × String) :
    l.unfinished locale s + (if l.records locale s = [] then 1 else 0) =
      (if l.Untranslated locale s then 1 else 0) + l.spare locale s := by
  unfold spare
  by_cases hr : l.records locale s = []
  · have hu : l.Untranslated locale s := by simp [Untranslated, hr]
    simp [unfinished, hr, hu]
  · rw [if_neg hr]
    by_cases hu : l.Untranslated locale s
    · obtain ⟨t, ht⟩ := List.exists_mem_of_ne_nil _ hr
      have hpos : 0 < l.unfinished locale s := List.countP_pos_iff.mpr ⟨t, ht, hu t ht⟩
      rw [if_pos hu]
      omega
    · rw [if_neg hu]
      omega

/-- The records that are counted are as many as the untranslated texts, but for the texts that
have no record and the records that a text has to spare. -/
theorem pendingCount_balance (l : Localization) (locale : String) :
    pendingCount l locale + (l.unrecorded locale).length =
      (l.untranslated locale).length + l.spareCount locale := by
  rw [pendingCount_eq_sum, unrecorded, untranslated, spareCount]
  induction sources l with
  | nil => rfl
  | cons s ss ih =>
    have hs := l.unfinished_eq locale s
    simp only [List.map_cons, List.sum_cons, List.filter_cons, decide_eq_true_eq]
    split <;> split <;> simp_all <;> omega

theorem mem_unfinishedLocales {x : Finding} : x ∈ unfinishedLocales l ↔
    ∃ locale ∈ targetLocales l, 0 < pendingCount l locale ∧
      x = .unfinishedLocale locale (pendingCount l locale) (sources l).length := by
  simp only [unfinishedLocales, List.mem_filterMap]
  refine exists_congr fun locale => and_congr_right fun _ => ?_
  split
  · rename_i h
    simp [h]
  · rename_i h
    rw [Option.some.injEq, and_iff_right (Nat.pos_of_ne_zero h), eq_comm]

end Localization

open StoryFlow.Localization

namespace Project

variable {p : Project} {locale : String}

theorem mem_findings_unfinishedLocale {pending total : Nat} :
    .unfinishedLocale locale pending total ∈ p.validate.findings ↔
      locale ∈ targetLocales p.localization ∧ 0 < pending ∧
        pending = pendingCount p.localization locale ∧ total = (sources p.localization).length := by
  have hc : ("missing_translations", unfinishedLocales p.localization) ∈ p.checks := by
    simp [checks]
  rw [mem_findings_iff hc rfl, mem_unfinishedLocales]
  constructor
  · rintro ⟨locale, hl, hpos, he⟩
    obtain ⟨rfl, rfl, rfl⟩ := Finding.unfinishedLocale.inj he
    exact ⟨hl, hpos, rfl, rfl⟩
  · rintro ⟨hl, hpos, rfl, rfl⟩
    exact ⟨locale, hl, hpos, rfl⟩

/-- The report of a locale is right when it counts as many records as there are untranslated
texts. -/
theorem reportedRightly_iff (hl : locale ∈ targetLocales p.localization) :
    p.localization.ReportedRightly locale p.validate.findings ↔
      pendingCount p.localization locale = (p.localization.untranslated locale).length := by
  have hsome : (∃ s ∈ sources p.localization, p.localization.Untranslated locale s) ↔
      0 < (p.localization.untranslated locale).length := by
    simp [untranslated, List.length_pos_iff_exists_mem]
  constructor
  · intro h
    rcases Nat.eq_zero_or_pos (pendingCount p.localization locale) with hz | hpos
    · have hnone : ¬ ∃ pending total,
          .unfinishedLocale locale pending total ∈ p.validate.findings := by
        rintro ⟨pending, total, hm⟩
        obtain ⟨-, hpos, he, -⟩ := mem_findings_unfinishedLocale.mp hm
        omega
      rw [h.reported_iff, hsome] at hnone
      omega
    · exact (h.counts _ _ (mem_findings_unfinishedLocale.mpr ⟨hl, hpos, rfl, rfl⟩)).1
  · intro h
    constructor
    · rw [hsome, ← h]
      constructor
      · rintro ⟨pending, total, hm⟩
        obtain ⟨-, hpos, rfl, -⟩ := mem_findings_unfinishedLocale.mp hm
        exact hpos
      · intro hpos
        exact ⟨_, _, mem_findings_unfinishedLocale.mpr ⟨hl, hpos, rfl, rfl⟩⟩
    · intro pending total hm
      obtain ⟨-, -, rfl, rfl⟩ := mem_findings_unfinishedLocale.mp hm
      exact ⟨h, rfl, h ▸ List.length_filter_le _ _⟩

end Project

namespace Localization

variable {l : Localization} {locale : String}

/-- A text with one record at most has none to spare. -/
theorem spareCount_eq_zero (h : ∀ s ∈ sources l, (l.records locale s).length ≤ 1) :
    l.spareCount locale = 0 := by
  have hspare : ∀ s ∈ sources l, l.spare locale s = 0 := by
    intro s hs
    have hle : l.unfinished locale s ≤ (l.records locale s).length := List.countP_le_length
    have hone := h s hs
    unfold spare
    split
    · omega
    · rename_i hu
      -- the only record is finished, so none is left to count
      have hlt : l.unfinished locale s < (l.records locale s).length := by
        refine Nat.lt_of_le_of_ne hle fun he => hu ?_
        exact List.countP_eq_length.mp he
      omega
  rw [spareCount, List.map_congr_left hspare]
  simp

theorem unrecorded_eq_nil_iff :
    l.unrecorded locale = [] ↔ ∀ s ∈ sources l, l.records locale s ≠ [] := by
  simp [unrecorded, List.filter_eq_nil_iff]

end Localization

/-- What is reported for missing translations, how its number differs from that of the untranslated
texts, and when the report of a locale is right. -/
theorem Project.missing_translations_reported (p : Project) :
    (∀ x, x ∈ p.validate.findings ∧ x.check = "missing_translations" ↔
      ∃ locale ∈ targetLocales p.localization, ∃ pending, 0 < pending ∧
        pending + (p.localization.unrecorded locale).length =
          (p.localization.untranslated locale).length + p.localization.spareCount locale ∧
        x = .unfinishedLocale locale pending (sources p.localization).length) ∧
    ∀ locale ∈ targetLocales p.localization,
      (p.localization.ReportedRightly locale p.validate.findings ↔
        (p.localization.unrecorded locale).length = p.localization.spareCount locale) ∧
      ((∀ s ∈ sources p.localization, (p.localization.records locale s).length ≤ 1) →
        (p.localization.ReportedRightly locale p.validate.findings ↔
          ∀ s ∈ sources p.localization, p.localization.records locale s ≠ [])) := by
  constructor
  · intro x
    have hc : ("missing_translations", unfinishedLocales p.localization) ∈ p.checks := by
      simp [checks]
    have hf : p.validate.findings.filter (·.check = "missing_translations") =
        unfinishedLocales p.localization := filter_check hc
    have hx : x ∈ p.validate.findings ∧ x.check = "missing_translations" ↔
        x ∈ unfinishedLocales p.localization := by
      rw [← hf, List.mem_filter, decide_eq_true_eq]
    rw [hx, mem_unfinishedLocales]
    refine exists_congr fun locale => and_congr_right fun _ => ?_
    have hb := pendingCount_balance p.localization locale
    constructor
    · rintro ⟨hpos, rfl⟩
      exact ⟨_, hpos, hb, rfl⟩
    · rintro ⟨pending, hpos, hp, rfl⟩
      obtain rfl : pending = pendingCount p.localization locale := by omega
      exact ⟨hpos, rfl⟩
  · intro locale hl
    have hb := pendingCount_balance p.localization locale
    have hright : p.localization.ReportedRightly locale p.validate.findings ↔
        (p.localization.unrecorded locale).length = p.localization.spareCount locale := by
      rw [reportedRightly_iff hl]
      omega
    refine ⟨hright, fun hone => ?_⟩
    rw [hright, spareCount_eq_zero hone, List.length_eq_zero_iff, unrecorded_eq_nil_iff]

/-- Two texts with records in four locales: in the first one text has no record, in the second and
the third one has a record to spare, in the last one both have one record. -/
def Localization.menu : Localization where
  languages := [⟨"en", none, true⟩, ⟨"es", none, false⟩, ⟨"fr", none, false⟩, ⟨"de", none, false⟩,
    ⟨"it", none, false⟩]
  strings := [("dish", "es", "final"), ("dish", "fr", "pending"), ("dish", "fr", "draft"),
    ("dish", "fr", "pending"), ("drink", "fr", "final"), ("dish", "de", "draft"),
    ("dish", "de", "final"), ("drink", "de", "final"), ("dish", "it", "final"),
    ("drink", "it", "pending")].map fun (id, locale, status) =>
      ⟨"block", id, "name", none, none, none, locale, none, status, none, none, none, none, false⟩
  glossary := []

def Project.menu : Project :=
  ⟨⟨"1", "Menu", none, none, []⟩, [], [], [], [], .menu, []⟩

theorem Project.menu_reported_rightly :
    "it" ∈ targetLocales Localization.menu ∧
      (∀ s ∈ sources Localization.menu, (Localization.menu.records "it" s).length ≤ 1) ∧
      Localization.menu.ReportedRightly "it" Project.menu.validate.findings := by
  have hl : "it" ∈ targetLocales Project.menu.localization := by decide +kernel
  have hone : ∀ s ∈ sources Localization.menu, (Localization.menu.records "it" s).length ≤ 1 := by
    decide +kernel
  have hright := ((missing_translations_reported .menu).2 "it" hl).2 hone
  exact ⟨hl, hone, hright.mpr (by decide +kernel)⟩

/-- A text without a record is not reported, one with three is counted three times, and one that is
finished is reported. -/
theorem Project.menu_reported_wrongly :
    ["es", "fr", "de"] ⊆ targetLocales Localization.menu ∧
      ¬ Localization.menu.ReportedRightly "es" Project.menu.validate.findings ∧
      ¬ Localization.menu.ReportedRightly "fr" Project.menu.validate.findings ∧
      ¬ Localization.menu.ReportedRightly "de" Project.menu.validate.findings := by
  have hl : ["es", "fr", "de"] ⊆ targetLocales Localization.menu := by decide +kernel
  have hwrong : ∀ locale ∈ ["es", "fr", "de"],
      ¬ Localization.menu.ReportedRightly locale Project.menu.validate.findings := by
    have hne : ∀ locale ∈ ["es", "fr", "de"],
        pendingCount Localization.menu locale ≠ (Localization.menu.untranslated locale).length := by
      decide +kernel
    exact fun locale hm h => hne locale hm ((reportedRightly_iff (p := .menu) (hl hm)).mp h)
  exact ⟨hl, hwrong "es" (by simp), hwrong "fr" (by simp), hwrong "de" (by simp)⟩

end StoryFlow
