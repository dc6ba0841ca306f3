import StoryFlow.Proofs.Assoc
import StoryFlow.Proofs.Native.Document

/-! # The localization section is read again

The section has one group for the texts of a source and one for the glossary entries of a term.
What such texts say about their source, and such entries about their term, stands in the group
once, as the first of them says it. All else is read back, from the section and from its text.
-/

namespace StoryFlow

open Native (sourceOf termOf)

/-! ## What a group says once -/

section Settle

variable {κ α ι : Type} [DecidableEq κ] {key : α → κ} {give : α → α → α} {values : List α}

/-- The value takes from the first value with its key what such values share. -/
def settleOne (key : α → κ) (give : α → α → α) (values : List α) (a : α) : α :=
  give a ((values.find? (key · = key a)).getD a)

/-- The values, each with what the first of its key says. -/
def settle (key : α → κ) (give : α → α → α) (values : List α) : List α :=
  values.map (settleOne key give values)

/-- The values of a group take what they share from the first of them. -/
theorem map_settleOne_group {k : κ} {a : α} {as : List α}
    (h : (k, a :: as) ∈ Assoc.group key values) :
    (a :: as).map (settleOne key give values) = (a :: as).map (give · a) := by
  refine List.map_congr_left fun b hb => ?_
  rw [settleOne, Assoc.key_of_mem_group h hb, ← List.head?_filter,
    ← Assoc.eq_filter_of_mem_group h]
  rfl

/-- What is read from the groups that are written, if each group is read as what it says. -/
theorem flatMap_group_perm_settle {write : List α → Option Json} {read : Json → List α}
    (hnil : write [] = none)
    (hread : ∀ a as, (a :: as).Sublist values → (∀ b ∈ as, key b = key a) →
      ∃ j, write (a :: as) = some j ∧ (read j).Perm ((a :: as).map (give · a))) :
    (((Assoc.group key values).filterMap fun g => write g.2).flatMap read).Perm
      (settle key give values) := by
  -- a group starts with the first of all values that have its key
  have hgroup : ∀ g ∈ Assoc.group key values,
      ((write g.2).toList.flatMap read).Perm (g.2.map (settleOne key give values)) := by
    rintro ⟨k, as⟩ hg
    cases as with
    | nil => simp [hnil]
    | cons a as =>
      have hsub : (a :: as).Sublist values :=
        Assoc.eq_filter_of_mem_group hg ▸ List.filter_sublist
      have hkey : ∀ b ∈ a :: as, key b = k := fun b => Assoc.key_of_mem_group hg
      obtain ⟨j, hj, hperm⟩ := hread a as hsub fun b hb =>
        (hkey b (List.mem_cons_of_mem a hb)).trans (hkey a List.mem_cons_self).symm
      rw [map_settleOne_group hg]
      simpa [hj] using hperm
  rw [List.filterMap_eq_flatMap_toList, List.flatMap_assoc]
  have hgroups := List.Perm.flatMap_left _ hgroup
  rw [← List.map_flatMap] at hgroups
  exact hgroups.trans ((Assoc.flatMap_group_perm key values).map _)

/-- Settled values are written as the same groups, if a group says what its first value says. -/
theorem filterMap_group_settle {write : List α → Option Json}
    (hkey : ∀ b a, key (give b a) = key b)
    (hwrite : ∀ a as, write ((a :: as).map (give · a)) = write (a :: as)) :
    ((Assoc.group key (settle key give values)).filterMap fun g => write g.2) =
      (Assoc.group key values).filterMap fun g => write g.2 := by
  have hgroups : Assoc.group key (settle key give values) = (Assoc.group key values).map
      fun g => (g.1, g.2.map (settleOne key give values)) :=
    Assoc.group_map (fun a => hkey a _) values
  rw [hgroups, List.filterMap_map]
  refine List.filterMap_congr fun g hg => ?_
  obtain ⟨k, as⟩ := g
  cases as with
  | nil => rfl
  | cons a as => exact (congrArg write (map_settleOne_group hg)).trans (hwrite a as)

/-- Values that differ in something that they keep are settled only if they are unchanged. -/
theorem settle_perm_iff {kept : α → ι} (hd : (values.map kept).Nodup)
    (hkept : ∀ b a, kept (give b a) = kept b) :
    (settle key give values).Perm values ↔ settle key give values = values := by
  refine ⟨fun h => ?_, List.Perm.of_eq⟩
  have hfix : ∀ b ∈ values, settleOne key give values b = b := fun b hb =>
    List.inj_on_of_nodup_map hd (h.mem_iff.mp (List.mem_map_of_mem hb)) hb (hkept b _)
  rw [settle, List.map_congr_left hfix, List.map_id']

theorem settle_map {f : α → α} (hkey : ∀ a, key (f a) = key a)
    (hgive : ∀ b a, give (f b) (f a) = f (give b a)) :
    settle key give (values.map f) = (settle key give values).map f := by
  simp only [settle, List.map_map]
  refine List.map_congr_left fun b _ => ?_
  have hfind : (values.map f).find? (key · = key b) = (values.find? (key · = key b)).map f := by
    simp only [List.find?_map, Function.comp_def, hkey]
  simp only [Function.comp_apply, settleOne, hkey, hfind, Option.getD_map, hgive]

end Settle

/-! ## Localizations -/

/-- The text with what another text says about its source. -/
def LocalizedText.withSourceOf (t u : LocalizedText) : LocalizedText :=
  { t with sourceText := u.sourceText, sourceTextHash := u.sourceTextHash, speaker := u.speaker }

/-- The glossary entry with what another entry says about its term. -/
def GlossaryEntry.withTermOf (g h : GlossaryEntry) : GlossaryEntry :=
  { g with doNotTranslate := h.doNotTranslate, context := h.context }

/-- The number of words as it is printed. -/
def LocalizedText.printed (t : LocalizedText) : LocalizedText :=
  { t with wordCount := (t.wordCount.filter Number.isFinite).map Number.unsigned }

namespace Localization

variable {l l' l'' : Localization}

/-- The first text of a source and the first glossary entry of a term say what all of them say. -/
def settled (l : Localization) : Localization where
  languages := l.languages
  strings := settle sourceOf LocalizedText.withSourceOf l.strings
  glossary := settle termOf GlossaryEntry.withTermOf l.glossary

def printed (l : Localization) : Localization :=
  { l with strings := l.strings.map LocalizedText.printed }

/-- No two texts have their source and locale in common and no two glossary entries their term and
target locale, and a table can hold each locale. -/
structure Apart (l : Localization) : Prop where
  strings : (l.strings.map fun t => (sourceOf t, t.locale)).Nodup
  glossary : (l.glossary.map fun g => (termOf g, g.targetLocale)).Nodup
  locales : ∀ t ∈ l.strings, t.locale ≠ Fields.lostKey
  targetLocales : ∀ g ∈ l.glossary, g.targetLocale ≠ Fields.lostKey

/-- The same up to the order of texts and glossary entries. -/
structure Alike (l l' : Localization) : Prop where
  languages : l.languages = l'.languages
  strings : l.strings.Perm l'.strings
  glossary : l.glossary.Perm l'.glossary

theorem Alike.symm (h : Alike l l') : Alike l' l :=
  ⟨h.languages.symm, h.strings.symm, h.glossary.symm⟩

theorem Alike.trans (h : Alike l l') (h' : Alike l' l'') : Alike l l'' :=
  ⟨h.languages.trans h'.languages, h.strings.trans h'.strings, h.glossary.trans h'.glossary⟩

/-- No more than the order of a settled localization can differ from one that was not settled. -/
theorem Apart.settled_alike_iff (h : l.Apart) : l.settled.Alike l ↔ l.settled = l := by
  constructor
  · rintro ⟨-, hstrings, hglossary⟩
    have hkeptText (t u : LocalizedText) :
        (sourceOf (t.withSourceOf u), (t.withSourceOf u).locale) = (sourceOf t, t.locale) := rfl
    have hkeptEntry (g k : GlossaryEntry) :
        (termOf (g.withTermOf k), (g.withTermOf k).targetLocale) = (termOf g, g.targetLocale) := rfl
    have hstrings := (settle_perm_iff h.strings hkeptText).mp hstrings
    have hglossary := (settle_perm_iff h.glossary hkeptEntry).mp hglossary
    rw [settled, hstrings, hglossary]
  · intro hs
    rw [hs]
    exact ⟨rfl, .refl _, .refl _⟩

theorem Apart.printed (h : l.Apart) : l.printed.Apart where
  strings := by
    rw [Localization.printed, List.map_map]
    exact h.strings
  glossary := h.glossary
  locales := List.forall_mem_map.mpr h.locales
  targetLocales := h.targetLocales

theorem settled_printed (l : Localization) : l.printed.settled = l.settled.printed := by
  have hstrings : settle sourceOf LocalizedText.withSourceOf (l.strings.map .printed) =
      (settle sourceOf LocalizedText.withSourceOf l.strings).map .printed :=
    settle_map (fun _ => rfl) fun _ _ => rfl
  simp only [settled, printed, hstrings]

end Localization

/-! ## Reading a section -/

def Checked.value? {α : Type} : Checked α → Option α
  | valid a => some a
  | faulty _ => none

namespace Native

/-- The fields of an object. -/
def fieldsOf (j : Json) : Fields :=
  j.fields?.getD []

/-- The elements of a list under a key. -/
def itemsOf (fs : Fields) (key : String) : List Json :=
  ((fs.get? key).bind Json.items?).getD []

/-- The translations of a group, by their locales. -/
def translationsOf (fs : Fields) : Fields :=
  ((fs.get? "translations").map fieldsOf).getD []

/-- The text of one locale: its own fields and those of its group. -/
def textIn (fs : Fields) (f : String × Json) : Option LocalizedText :=
  (LocalizedText.read (some (.obj (("locale_code", .str f.1) :: fs ++ fieldsOf f.2)))).value?

/-- The glossary entry of one locale. -/
def entryIn (fs : Fields) (f : String × Json) : Option GlossaryEntry :=
  (GlossaryEntry.read (some (.obj
    (("target_locale", .str f.1) :: ("target_term", f.2) :: fs)))).value?

/-- The texts of a group. -/
def textsOf (j : Json) : List LocalizedText :=
  (translationsOf (fieldsOf j)).filterMap (textIn (fieldsOf j))

/-- The glossary entries of a group. -/
def entriesOf (j : Json) : List GlossaryEntry :=
  (translationsOf (fieldsOf j)).filterMap (entryIn (fieldsOf j))

/-- The localization that a section holds. -/
def ofSection (j : Json) : Localization where
  languages := (itemsOf (fieldsOf j) "languages").filterMap fun j => (Language.read (some j)).value?
  strings := (itemsOf (fieldsOf j) "strings").flatMap textsOf
  glossary := (itemsOf (fieldsOf j) "glossary").flatMap entriesOf

open Reader

theorem textIn_localized {t u : LocalizedText} (hkey : sourceOf u = sourceOf t)
    (hspeaker : t.speaker ≠ some "") (translations : Json) :
    textIn [("source_type", .str t.sourceType), ("source_id", .str t.sourceId),
      ("source_field", .str t.sourceField), ("source_text", optional t.sourceText),
      ("source_text_hash", optional t.sourceTextHash), ("speaker_sheet_id", optional t.speaker),
      ("translations", translations)] (u.locale, localized u) = some (u.withSourceOf t) := by
  have hstatus : withDefault "pending" string (some (.str u.status)) = .valid u.status := rfl
  have hcount : nullable number (some (.ofOption .num u.wordCount)) = .valid u.wordCount := by
    cases u.wordCount <;> rfl
  simp only [sourceOf, Prod.mk.injEq] at hkey
  simp [textIn, LocalizedText.read, object, field, Fields.get?_cons, fieldsOf, localized, optional,
    Json.fields?, LocalizedText.withSourceOf, Checked.value?, reference_ofOption hspeaker, hkey,
    hstatus, hcount]

theorem entryIn_targetTerm {g h : GlossaryEntry} (hkey : termOf h = termOf g)
    (translations : Json) :
    entryIn [("source_term", .str g.sourceTerm), ("source_locale", .str g.sourceLocale),
      ("translations", translations), ("do_not_translate", .bool g.doNotTranslate),
      ("context", optional g.context)] (h.targetLocale, optional h.targetTerm) =
        some (h.withTermOf g) := by
  simp only [termOf, Prod.mk.injEq] at hkey
  simp [entryIn, GlossaryEntry.read, object, field, Fields.get?_cons, optional,
    GlossaryEntry.withTermOf, Checked.value?, hkey]

theorem value?_read_language (g : Language) :
    (Language.read (some (language g))).value? = some g := by
  simp [Language.read, object, field, Fields.get?_cons, language, optional, Checked.value?]

/-- The table of a group is read entry by entry, and the members of a group differ in the names
under which they stand there. -/
theorem filterMap_table_perm {κ α : Type} {key : α → κ} {name : α → String} {write : α → Json}
    {read : String × Json → Option α} {give : α → α → α} {a : α} {as : List α}
    (hkey : ∀ b ∈ as, key b = key a) (hd : ((a :: as).map fun b => (key b, name b)).Nodup)
    (hlost : ∀ b ∈ a :: as, name b ≠ Fields.lostKey)
    (h : ∀ b, key b = key a → read (name b, write b) = some (give b a)) :
    ((Fields.table ((a :: as).map fun b => (name b, write b))).filterMap read).Perm
      ((a :: as).map (give · a)) := by
  have hkey : ∀ b ∈ a :: as, key b = key a := List.forall_mem_cons.mpr ⟨rfl, hkey⟩
  -- keys and names together differ, and all keys are one
  have hnames : ((a :: as).map name).Nodup := by
    rw [List.map_congr_left fun b hb => congrArg (·, name b) (hkey b hb)] at hd
    exact List.Nodup.of_map (Prod.mk (key a)) (by rwa [List.map_map])
  have htable : (Fields.table ((a :: as).map fun b => (name b, write b))).Perm
      ((a :: as).map fun b => (name b, write b)) :=
    Fields.table_perm (by simpa [Function.comp_def] using hnames) (by simpa using hlost)
  refine (htable.filterMap read).trans (.of_eq ?_)
  rw [List.filterMap_map, ← List.filterMap_eq_map]
  exact List.filterMap_congr fun b hb => h b (hkey b hb)

/-- The texts of one source are read from their group. -/
theorem textsOf_textGroup {t : LocalizedText} {ts : List LocalizedText}
    (hkey : ∀ u ∈ ts, sourceOf u = sourceOf t)
    (hd : ((t :: ts).map fun u => (sourceOf u, u.locale)).Nodup)
    (hlost : ∀ u ∈ t :: ts, u.locale ≠ Fields.lostKey) (hspeaker : t.speaker ≠ some "") :
    ∃ j, textGroup (t :: ts) = some j ∧
      (textsOf j).Perm ((t :: ts).map (·.withSourceOf t)) :=
  ⟨_, rfl, filterMap_table_perm hkey hd hlost fun _ hu => textIn_localized hu hspeaker _⟩

/-- The glossary entries of one term are read from their group. -/
theorem entriesOf_glossaryGroup {g : GlossaryEntry} {gs : List GlossaryEntry}
    (hkey : ∀ h ∈ gs, termOf h = termOf g)
    (hd : ((g :: gs).map fun h => (termOf h, h.targetLocale)).Nodup)
    (hlost : ∀ h ∈ g :: gs, h.targetLocale ≠ Fields.lostKey) :
    ∃ j, glossaryGroup (g :: gs) = some j ∧
      (entriesOf j).Perm ((g :: gs).map (·.withTermOf g)) :=
  ⟨_, rfl, filterMap_table_perm hkey hd hlost fun _ hh => entryIn_targetTerm hh _⟩

section Section

variable {l l' : Localization}

/-- What is read from a section. -/
theorem ofSection_localization (h : l.Apart) (hspeaker : ∀ t ∈ l.strings, t.speaker ≠ some "") :
    (ofSection (localization l)).Alike l.settled where
  languages := by
    have hlanguages : (l.languages.map language).filterMap
        (fun j => (Language.read (some j)).value?) = l.languages := by
      rw [List.filterMap_map]
      exact (List.filterMap_congr fun g _ => value?_read_language g).trans List.filterMap_some
    exact hlanguages
  strings := flatMap_group_perm_settle rfl fun t ts hsub hkey =>
    textsOf_textGroup hkey (h.strings.sublist (hsub.map _))
      (fun u hu => h.locales u (hsub.mem hu)) (hspeaker t (hsub.mem List.mem_cons_self))
  glossary := flatMap_group_perm_settle rfl fun g gs hsub hkey =>
    entriesOf_glossaryGroup hkey (h.glossary.sublist (hsub.map _))
      fun k hk => h.targetLocales k (hsub.mem hk)

/-- The section does not tell a localization from the settled one. -/
theorem localization_settled (l : Localization) : localization l.settled = localization l := by
  have htexts (t : LocalizedText) (ts : List LocalizedText) :
      textGroup ((t :: ts).map (·.withSourceOf t)) = textGroup (t :: ts) := by
    simp [textGroup, LocalizedText.withSourceOf, localized, Function.comp_def]
  have hentries (g : GlossaryEntry) (gs : List GlossaryEntry) :
      glossaryGroup ((g :: gs).map (·.withTermOf g)) = glossaryGroup (g :: gs) := by
    simp [glossaryGroup, GlossaryEntry.withTermOf, Function.comp_def]
  have hstrings : ((Assoc.group sourceOf l.settled.strings).filterMap fun g => textGroup g.2) =
      (Assoc.group sourceOf l.strings).filterMap fun g => textGroup g.2 :=
    filterMap_group_settle (fun _ _ => rfl) htexts
  have hglossary : ((Assoc.group termOf l.settled.glossary).filterMap fun g => glossaryGroup g.2) =
      (Assoc.group termOf l.glossary).filterMap fun g => glossaryGroup g.2 :=
    filterMap_group_settle (fun _ _ => rfl) hentries
  rw [localization, hstrings, hglossary]
  rfl

theorem printed_localized (t : LocalizedText) : (localized t).printed = localized t.printed := by
  simp [localized, optional, Fields.mapValues, LocalizedText.printed]

theorem printed_textGroup (ts : List LocalizedText) :
    (textGroup ts).map Json.printed = textGroup (ts.map .printed) := by
  cases ts with
  | nil => rfl
  | cons t ts =>
    have htable : Fields.mapValues .printed
        (Fields.table ((t :: ts).map fun u => (u.locale, localized u))) =
          Fields.table (((t :: ts).map .printed).map fun u => (u.locale, localized u)) := by
      rw [← Fields.table_mapValues, Fields.mapValues_map, List.map_map]
      simp only [printed_localized]
      rfl
    rw [textGroup, Option.map_some, Json.printed_obj]
    simp only [optional, Fields.mapValues_cons, Fields.mapValues_nil, Json.printed_str,
      Json.printed_ofOption_str, Json.printed_obj, htable]
    rfl

theorem printed_glossaryGroup (gs : List GlossaryEntry) :
    (glossaryGroup gs).map Json.printed = glossaryGroup gs := by
  cases gs with
  | nil => rfl
  | cons g gs =>
    rw [glossaryGroup, Option.map_some, Json.printed_obj]
    simp only [optional, Fields.mapValues_cons, Fields.mapValues_nil, Json.printed_str,
      Json.printed_bool, Json.printed_ofOption_str, Json.printed_obj, ← Fields.table_mapValues,
      Fields.mapValues_map]

theorem printed_language (g : Language) : (language g).printed = language g := by
  simp [language, optional, Fields.mapValues]

/-- The text of a section spells the section of the localization as it is printed. -/
theorem printed_localization (l : Localization) :
    (localization l).printed = localization l.printed := by
  have hgroups : Assoc.group sourceOf (l.strings.map .printed) =
      (Assoc.group sourceOf l.strings).map fun g => (g.1, g.2.map .printed) :=
    Assoc.group_map (fun _ => rfl) l.strings
  simp [localization, Fields.mapValues, Localization.printed, hgroups, printed_language,
    List.map_filterMap, List.filterMap_map, Function.comp_def, printed_textGroup,
    printed_glossaryGroup, sourceLocale]

theorem speaker_ne_empty_of_read {j : Option Json} {t : LocalizedText}
    (h : LocalizedText.read j = .valid t) : t.speaker ≠ some "" := by
  obtain ⟨fs, rfl, h⟩ := object_eq_valid h
  obtain ⟨_, _, h₁, -, rfl⟩ := Checked.seq_eq_valid.mp h
  obtain ⟨_, _, h₂, -, rfl⟩ := Checked.seq_eq_valid.mp h₁
  obtain ⟨_, _, h₃, -, rfl⟩ := Checked.seq_eq_valid.mp h₂
  obtain ⟨_, _, h₄, -, rfl⟩ := Checked.seq_eq_valid.mp h₃
  obtain ⟨_, _, h₅, -, rfl⟩ := Checked.seq_eq_valid.mp h₄
  obtain ⟨_, _, h₆, -, rfl⟩ := Checked.seq_eq_valid.mp h₅
  obtain ⟨_, _, h₇, -, rfl⟩ := Checked.seq_eq_valid.mp h₆
  obtain ⟨_, _, h₈, -, rfl⟩ := Checked.seq_eq_valid.mp h₇
  obtain ⟨_, speaker, h₉, hspeaker, rfl⟩ := Checked.seq_eq_valid.mp h₈
  obtain ⟨_, _, h₁₀, -, rfl⟩ := Checked.seq_eq_valid.mp h₉
  obtain ⟨_, _, h₁₁, -, rfl⟩ := Checked.seq_eq_valid.mp h₁₀
  obtain ⟨_, _, h₁₂, -, rfl⟩ := Checked.seq_eq_valid.mp h₁₁
  obtain ⟨_, _, h₁₃, -, rfl⟩ := Checked.seq_eq_valid.mp h₁₂
  obtain ⟨_, -, rfl⟩ := Checked.map_eq_valid.mp h₁₃
  exact reference_ne_empty (Checked.under_eq_valid.mp hspeaker)

theorem strings_speaker_ne_empty {stored : Option Json}
    (h : Localization.read stored = .valid l) : ∀ t ∈ l.strings, t.speaker ≠ some "" := by
  obtain ⟨fs, rfl, h⟩ := object_eq_valid h
  obtain ⟨_, glossary, h₁, -, rfl⟩ := Checked.seq_eq_valid.mp h
  obtain ⟨_, texts, h₂, htexts, rfl⟩ := Checked.seq_eq_valid.mp h₁
  obtain ⟨languages, -, rfl⟩ := Checked.map_eq_valid.mp h₂
  intro t ht
  obtain ⟨v, hv⟩ := exists_of_mem_list (Checked.under_eq_valid.mp htexts) ht
  exact speaker_ne_empty_of_read hv

end Section

/-- A parsed localization is read back from its section, and from the text of the section, up to
the order of texts and glossary entries, but for what several of them say about one source or term:
of that the first one counts. So a localization is read back as it is exactly when the first says
what all say, and localizations with one section differ in nothing else. -/
theorem section_reread {stored : Option Json} {l : Localization}
    (hread : Localization.read stored = .valid l) (h : l.Apart) :
    (ofSection (localization l)).Alike l.settled ∧
    ((ofSection (localization l)).Alike l ↔ l.settled = l) ∧
    localization l.settled = localization l ∧
    (∀ stored' l', Localization.read stored' = .valid l' → l'.Apart →
      localization l' = localization l → l'.settled.Alike l.settled) ∧
    ∀ isPretty, ∃ s, Json.read? ((localization l).text isPretty) = some s ∧
      (ofSection s).Alike l.settled.printed := by
  have hspeaker := strings_speaker_ne_empty hread
  have hsection := ofSection_localization h hspeaker
  refine ⟨hsection, ?_, localization_settled l, ?_, fun isPretty => ?_⟩
  · rw [← h.settled_alike_iff]
    exact ⟨hsection.symm.trans, hsection.trans⟩
  · intro stored' l' hread' h' he
    have hsection' := ofSection_localization h' (strings_speaker_ne_empty hread')
    rw [he] at hsection'
    exact hsection'.symm.trans hsection
  · -- the text spells the section of what is printed, and that is apart as well
    refine ⟨(localization l).printed, Json.read?_text (proper_localization l) isPretty, ?_⟩
    rw [printed_localization, ← l.settled_printed]
    exact ofSection_localization h.printed (List.forall_mem_map.mpr hspeaker)

/-! ## A greeting in two locales

Of its two translations the second one may say something else about the greeting, and so may the
second translation of a name. -/

def greetingStored (again : String) : Json :=
  .obj [
    ("strings", .arr [
      .obj [("source_type", .str "flow_node"), ("source_id", .str "2"),
        ("source_field", .str "text"), ("source_text", .str "Hello"), ("locale_code", .str "es"),
        ("translated_text", .str "Hola")],
      .obj [("source_type", .str "flow_node"), ("source_id", .str "2"),
        ("source_field", .str "text"), ("source_text", .str again), ("locale_code", .str "fr"),
        ("translated_text", .str "Salut")]]),
    ("glossary", .arr [
      .obj [("source_term", .str "Jaime"), ("source_locale", .str "en"),
        ("target_locale", .str "es"), ("context", .str "Hello")],
      .obj [("source_term", .str "Jaime"), ("source_locale", .str "en"),
        ("target_locale", .str "fr"), ("context", .str again)]])]

def greeting (again : String) : Localization where
  languages := []
  strings := [
    ⟨"flow_node", "2", "text", some "Hello", none, none, "es", some "Hola", "pending", none, none,
      none, none, false⟩,
    ⟨"flow_node", "2", "text", some again, none, none, "fr", some "Salut", "pending", none, none,
      none, none, false⟩]
  glossary := [⟨"Jaime", "en", none, "es", false, some "Hello"⟩,
    ⟨"Jaime", "en", none, "fr", false, some again⟩]

theorem read_greeting (again : String) :
    Localization.read (some (greetingStored again)) = .valid (greeting again) := rfl

theorem greeting_apart (again : String) : (greeting again).Apart where
  strings := by simp [greeting, sourceOf]
  glossary := by simp [greeting, termOf]
  locales := by simp [greeting, Fields.lostKey]
  targetLocales := by simp [greeting, Fields.lostKey]

theorem greeting_reread :
    Localization.read (some (greetingStored "Hello")) = .valid (greeting "Hello") ∧
      (greeting "Hello").Apart ∧
      (ofSection (localization (greeting "Hello"))).Alike (greeting "Hello") := by
  obtain ⟨-, hiff, -⟩ := section_reread (read_greeting "Hello") (greeting_apart "Hello")
  exact ⟨read_greeting _, greeting_apart _, hiff.mpr (by decide)⟩

/-- Two different localizations with one section. -/
theorem greeting_sections_equal :
    Localization.read (some (greetingStored "Hello")) = .valid (greeting "Hello") ∧
      Localization.read (some (greetingStored "Bye")) = .valid (greeting "Bye") ∧
      (greeting "Hello").Apart ∧ (greeting "Bye").Apart ∧
      localization (greeting "Bye") = localization (greeting "Hello") ∧
      ¬ (greeting "Bye").Alike (greeting "Hello") := by
  refine ⟨read_greeting _, read_greeting _, greeting_apart _, greeting_apart _, rfl, fun h => ?_⟩
  have hmem : ∀ t ∈ (greeting "Bye").strings, t ∈ (greeting "Hello").strings :=
    fun t => h.strings.mem_iff.mp
  exact absurd hmem (by decide)

end Native

end StoryFlow
