import StoryFlow.Options
import StoryFlow.Proofs.Json.Each

/-! # Reading options

Four fields of stored options may be wrong. They are looked at in turn, and the first that does
not hold what it may hold decides the error; all other fields take every value. Options that were
read can be stored again, and are then read as they are. An error has no message exactly when it
shows a value without a text.
-/

namespace StoryFlow

/-! ## Texts of values -/

namespace Json

variable {j : Json} {items : List Json}

/-- An object with a field `toString` has no text, and neither has a list with such a value. -/
inductive Textless : Json → Prop
  | obj {fs : Fields} (h : "toString" ∈ fs.keys) : Textless (.obj fs)
  | arr {items : List Json} {j : Json} (hj : j ∈ items) (h : Textless j) : Textless (.arr items)

theorem displayItems?_eq_none_iff :
    displayItems? items = none ↔ ∃ j ∈ items, j.display? = none := by
  induction items with
  | nil => simp [displayItems?]
  | cons j items ih =>
    rw [List.exists_mem_cons_iff, ← ih]
    cases j with
    | null => simp [displayItems?, display?]
    | bool | num | str | arr | obj =>
      cases hj : display? _ <;> cases hi : displayItems? items <;> simp [displayItems?, hj, hi]

theorem display?_eq_none_iff : j.display? = none ↔ j.Textless := by
  induction j using ind with
  | null | bool | num | str => exact iff_of_false (by simp [display?]) nofun
  | arr items ih =>
    rw [display?, Option.map_eq_none_iff, displayItems?_eq_none_iff]
    constructor
    · rintro ⟨j, hj, h⟩
      exact .arr hj ((ih j hj).mp h)
    · rintro (_ | ⟨hj, h⟩)
      exact ⟨_, hj, (ih _ hj).mpr h⟩
  | obj fs =>
    have hkeys : fs.any (·.1 == "toString") ↔ "toString" ∈ fs.keys := by simp [Fields.keys]
    rw [display?]
    constructor
    · intro h
      exact .obj (hkeys.mp (by simpa using h))
    · rintro ⟨h⟩
      exact if_pos (hkeys.mpr h)

theorem Textless.kind (h : j.Textless) : j.kind = .object ∨ j.kind = .array := by
  cases h with
  | obj => exact .inl rfl
  | arr => exact .inr rfl

end Json

/-! ## Names -/

theorem Format.ofName?_isSome_iff {s : String} :
    (ofName? s).isSome ↔ s ∈ all.map name := by
  rw [ofName?, List.find?_isSome, List.mem_map]
  simp only [beq_iff_eq]

theorem Format.ofName?_name (f : Format) : ofName? f.name = some f := by
  cases f <;> rfl

theorem AssetMode.ofName?_isSome_iff {s : String} :
    (ofName? s).isSome ↔ s ∈ [references, embedded, bundled].map name := by
  rw [ofName?, List.find?_isSome, List.mem_map]
  simp only [beq_iff_eq]

theorem AssetMode.ofName?_name (m : AssetMode) : ofName? m.name = some m := by
  cases m <;> rfl

def Selection.toJson : Selection → Json
  | all => .str "all"
  | only ids => .arr (ids.map .str)

namespace Options

variable {settings : Settings} {now later field default : String} {stored : Option Json}
  {fs : Fields} {e : OptionsError} {o : Options}

/-! ## The first wrong field -/

/-- The format is missing or `null`, or the name of a format. -/
def holdsFormat : Option Json → Bool
  | none | some .null => true
  | some (.str s) => s ∈ Format.all.map Format.name
  | some _ => false

/-- A text is missing or `null`, or any text. -/
def holdsText : Option Json → Bool
  | none | some .null | some (.str _) => true
  | some _ => false

/-- The asset mode is missing, `null` or `false`, or the name of a mode. -/
def holdsAssets : Option Json → Bool
  | none | some .null => true
  | some (.bool b) => !b
  | some (.str s) => s ∈ [AssetMode.references, .embedded, .bundled].map AssetMode.name
  | some _ => false

/-- What a field may hold, and the error about any other value, with its code. -/
structure Demand where
  key : String
  fits : Option Json → Bool
  refuse : Json → OptionsError
  code : String

namespace Demand

def format : Demand :=
  ⟨"format", holdsFormat, .unknownFormat, "INVALID_FORMAT"⟩

def assets : Demand :=
  ⟨"include_assets", holdsAssets, .unknownAssetMode, "INVALID_ASSET_MODE"⟩

def text (key : String) : Demand :=
  ⟨key, holdsText, fun j => .badField key (.mismatch .string j.kind), "INVALID_OPTIONS"⟩

def isMet (d : Demand) (fs : Fields) : Bool :=
  d.fits (fs.get? d.key)

end Demand

/-- What is demanded of stored options, in the order in which it is looked at. -/
def demands : List Demand :=
  [.format, .text "version", .assets, .text "exported_at"]

section Ends

variable {α β : Type} {r : Option Json → Except OptionsError α} {d : Demand} {ds : List Demand}

/-- A reader takes what the demand admits and refuses every other value. -/
structure Takes (r : Option Json → Except OptionsError α) (d : Demand) : Prop where
  ok : ∀ stored, d.fits stored → ∃ a, r stored = .ok a
  error : ∀ stored, ¬ d.fits stored → ∃ j, stored = some j ∧ r stored = .error (d.refuse j)

/-- The first of the demands that stored options do not meet. -/
def unmet? (fs : Fields) (ds : List Demand) : Option Demand :=
  ds.find? (!·.isMet fs)

/-- A result is there if all demands are met; else the first that is not refuses its field. -/
def Ends (fs : Fields) (result : Except OptionsError β) (ds : List Demand) : Prop :=
  match unmet? fs ds with
  | none => ∃ b, result = .ok b
  | some d => ∃ j, fs.get? d.key = some j ∧ result = .error (d.refuse j)

theorem ends_bind (h : Takes r d) {f : α → Except OptionsError β} (hf : ∀ a, Ends fs (f a) ds) :
    Ends fs (r (fs.get? d.key) >>= f) (d :: ds) := by
  by_cases hm : d.isMet fs
  · obtain ⟨a, ha⟩ := h.ok _ hm
    rw [ha, Ends, unmet?, List.find?_cons_of_neg (by simp [hm])]
    exact hf a
  · obtain ⟨j, hj, he⟩ := h.error _ hm
    rw [he, Ends, unmet?, List.find?_cons_of_pos (by simp [hm])]
    exact ⟨j, hj, rfl⟩

end Ends

theorem takes_format : Takes readFormat .format where
  ok stored h := by
    match stored with
    | none | some .null => exact ⟨_, rfl⟩
    | some (.str s) =>
      have hs : (Format.ofName? s).isSome := Format.ofName?_isSome_iff.mpr (of_decide_eq_true h)
      obtain ⟨f, hf⟩ := Option.isSome_iff_exists.mp hs
      exact ⟨f, by rw [readFormat, hf]; rfl⟩
    | some (.bool _) | some (.num _) | some (.arr _) | some (.obj _) => nomatch h
  error stored h := by
    match stored with
    | none | some .null => exact absurd rfl h
    | some (.str s) =>
      have hs : Format.ofName? s = none :=
        Option.not_isSome_iff_eq_none.mp fun hs =>
          h (decide_eq_true (Format.ofName?_isSome_iff.mp hs))
      exact ⟨.str s, rfl, by rw [readFormat, hs]; rfl⟩
    | some (.bool _) | some (.num _) | some (.arr _) | some (.obj _) => exact ⟨_, rfl, rfl⟩

theorem takes_text : Takes (readText field default) (.text field) where
  ok stored h := by
    match stored with
    | none | some .null | some (.str _) => exact ⟨_, rfl⟩
    | some (.bool _) | some (.num _) | some (.arr _) | some (.obj _) => nomatch h
  error stored h := by
    match stored with
    | none | some .null | some (.str _) => exact absurd rfl h
    | some (.bool _) | some (.num _) | some (.arr _) | some (.obj _) => exact ⟨_, rfl, rfl⟩

theorem takes_assets : Takes readAssets .assets where
  ok stored h := by
    match stored with
    | none | some .null | some (.bool false) => exact ⟨_, rfl⟩
    | some (.str s) =>
      have hs : (AssetMode.ofName? s).isSome :=
        AssetMode.ofName?_isSome_iff.mpr (of_decide_eq_true h)
      obtain ⟨m, hm⟩ := Option.isSome_iff_exists.mp hs
      exact ⟨some m, by rw [readAssets, hm]; rfl⟩
    | some (.bool true) | some (.num _) | some (.arr _) | some (.obj _) => nomatch h
  error stored h := by
    match stored with
    | none | some .null | some (.bool false) => exact absurd rfl h
    | some (.str s) =>
      have hs : AssetMode.ofName? s = none :=
        Option.not_isSome_iff_eq_none.mp fun hs =>
          h (decide_eq_true (AssetMode.ofName?_isSome_iff.mp hs))
      exact ⟨.str s, rfl, by rw [readAssets, hs]; rfl⟩
    | some (.bool true) | some (.num _) | some (.arr _) | some (.obj _) => exact ⟨_, rfl, rfl⟩

theorem ofFields_ends (settings : Settings) (now : String) (fs : Fields) :
    Ends fs (ofFields settings now fs) demands :=
  ends_bind takes_format fun _ => ends_bind takes_text fun _ =>
    ends_bind takes_assets fun _ => ends_bind takes_text fun _ => ⟨_, rfl⟩

theorem unmet?_eq_none_iff : unmet? fs demands = none ↔ ∀ d ∈ demands, d.isMet fs := by
  simp [unmet?]

theorem ofFields_of_unmet (settings : Settings) (now : String) {d : Demand}
    (h : unmet? fs demands = some d) :
    ∃ j, fs.get? d.key = some j ∧ ofFields settings now fs = .error (d.refuse j) := by
  have he := ofFields_ends settings now fs
  rwa [Ends, h] at he

theorem exists_ofFields_iff :
    (∃ o, ofFields settings now fs = .ok o) ↔ unmet? fs demands = none := by
  have he := ofFields_ends settings now fs
  cases hu : unmet? fs demands with
  | none => exact iff_of_true (by rwa [Ends, hu] at he) rfl
  | some d =>
    obtain ⟨j, -, hj⟩ := ofFields_of_unmet settings now hu
    simp [hj]

/-- Options that are no object are refused, and so is the value of the first field that is wrong. -/
theorem read_error (h : read settings now stored = .error e) :
    e = .notAnObject ∨ ∃ (fs : Fields) (d : Demand) (j : Json), stored = some (.obj fs) ∧
      unmet? fs demands = some d ∧ fs.get? d.key = some j ∧ e = d.refuse j := by
  unfold read at h
  split at h
  · exact nomatch h
  · exact nomatch h
  · rename_i fs
    cases hu : unmet? fs demands with
    | none =>
      obtain ⟨o, ho⟩ := exists_ofFields_iff.mpr hu
      exact nomatch ho.symm.trans h
    | some d =>
      obtain ⟨j, hj, he⟩ := ofFields_of_unmet settings now hu
      exact .inr ⟨fs, d, j, rfl, hu, hj, Except.error.inj (h.symm.trans he)⟩
  · exact .inl (Except.error.inj h).symm

/-! ## Messages -/

/-- The format and the asset mode of stored options are neither objects nor lists. -/
def Plain (stored : Option Json) : Prop :=
  ∀ fs : Fields, stored = some (.obj fs) → ∀ key ∈ ["format", "include_assets"], ∀ j ∈ fs.get? key,
    j.kind ≠ .object ∧ j.kind ≠ .array

theorem plain_obj_iff :
    Plain (some (.obj fs)) ↔ ∀ key ∈ ["format", "include_assets"], ∀ j ∈ fs.get? key,
      j.kind ≠ .object ∧ j.kind ≠ .array := by
  constructor
  · exact fun h => h fs rfl
  · rintro h _ ⟨⟩
    exact h

theorem code_refuse {d : Demand} (hd : d ∈ demands) (j : Json) : (d.refuse j).code = d.code := by
  simp only [demands, List.mem_cons, List.not_mem_nil, or_false] at hd
  rcases hd with rfl | rfl | rfl | rfl <;> rfl

theorem message?_refuse_eq_none_iff {d : Demand} (hd : d ∈ demands) (j : Json) :
    (d.refuse j).message? = none ↔ d.key ∈ ["format", "include_assets"] ∧ j.Textless := by
  simp only [demands, List.mem_cons, List.not_mem_nil, or_false] at hd
  rcases hd with rfl | rfl | rfl | rfl <;>
    simp [Demand.format, Demand.assets, Demand.text, OptionsError.message?,
      Json.display?_eq_none_iff]

/-- The first field that is wrong is one whose value is shown, and the value has no text. -/
def Untold (stored : Option Json) : Prop :=
  ∃ (fs : Fields) (d : Demand) (j : Json), stored = some (.obj fs) ∧
    unmet? fs demands = some d ∧ d.key ∈ ["format", "include_assets"] ∧
    fs.get? d.key = some j ∧ j.Textless

/-- An error of options has no message exactly when it has to show a value without a text. -/
theorem exists_untold_iff (settings : Settings) (now : String) :
    (∃ e, read settings now stored = .error e ∧ e.message? = none) ↔ Untold stored := by
  constructor
  · rintro ⟨e, he, hm⟩
    obtain rfl | ⟨fs, d, j, rfl, hu, hj, rfl⟩ := read_error he
    · exact nomatch hm
    · obtain ⟨hkey, ht⟩ := (message?_refuse_eq_none_iff (List.mem_of_find?_eq_some hu) j).mp hm
      exact ⟨fs, d, j, rfl, hu, hkey, hj, ht⟩
  · rintro ⟨fs, d, j, rfl, hu, hkey, hj, ht⟩
    obtain ⟨j', hj', he⟩ := ofFields_of_unmet settings now hu
    obtain rfl := Option.some.inj (hj.symm.trans hj')
    exact ⟨_, he, (message?_refuse_eq_none_iff (List.mem_of_find?_eq_some hu) j).mpr ⟨hkey, ht⟩⟩

theorem Plain.not_untold (h : Plain stored) : ¬ Untold stored := by
  rintro ⟨fs, d, j, hfs, -, hkey, hj, ht⟩
  obtain ⟨hobject, harray⟩ := h fs hfs d.key hkey j hj
  exact ht.kind.elim hobject harray

theorem message?_isSome (hp : Plain stored) (h : read settings now stored = .error e) :
    e.message?.isSome := by
  by_contra hm
  exact hp.not_untold ((exists_untold_iff settings now).mp ⟨e, h, by simpa using hm⟩)

/-! ## Stored options -/

/-- The options as an object. -/
def toJson (o : Options) : Json :=
  .obj [("format", .str o.format.name), ("version", .str o.version),
    ("include_sheets", .bool o.includeSheets), ("include_flows", .bool o.includeFlows),
    ("include_scenes", .bool o.includeScenes), ("include_screenplays", .bool o.includeScreenplays),
    ("include_localization", .bool o.includeLocalization),
    ("include_assets", o.assets.elim (.bool false) (.str ·.name)),
    ("languages", o.languages.toJson), ("flow_ids", o.flowIds.toJson),
    ("sheet_ids", o.sheetIds.toJson), ("scene_ids", o.sceneIds.toJson),
    ("validate_before_export", .bool o.validateBeforeExport),
    ("pretty_print", .bool o.prettyPrint), ("exported_at", .str o.exportedAt)]

theorem readFlag_bool (default b : Bool) : readFlag default (some (.bool b)) = b := rfl

theorem readSelection_toJson (s : Selection) : readSelection (some s.toJson) = s := by
  cases s with
  | all => rfl
  | only ids => simp [Selection.toJson, readSelection, List.filterMap_map]

theorem readFormat_name (f : Format) : readFormat (some (.str f.name)) = .ok f := by
  rw [readFormat, Format.ofName?_name]
  rfl

theorem readAssets_elim (assets : Option AssetMode) :
    readAssets (some (assets.elim (.bool false) (.str ·.name))) = .ok assets := by
  cases assets with
  | none => rfl
  | some m => rw [Option.elim, readAssets, AssetMode.ofName?_name]; rfl

/-- A text that is not empty, or has an empty default, is read as it is. -/
theorem readText_str {s : String} (h : s = "" → default = "") :
    readText field default (some (.str s)) = .ok s := by
  by_cases hs : s = ""
  · simp [readText, hs, h hs]
  · simp [readText, hs]

theorem default_of_readText (h : readText field default stored = .ok "") : default = "" := by
  unfold readText at h
  split at h
  · exact Except.ok.inj h
  · exact Except.ok.inj h
  · split at h
    · exact Except.ok.inj h
    · rename_i hs
      exact absurd (Except.ok.inj h) hs
  · exact nomatch h

theorem ok_of_bind {α β ε : Type} {x : Except ε α} {f : α → Except ε β} {b : β}
    (h : x >>= f = .ok b) : ∃ a, x = .ok a ∧ f a = .ok b := by
  cases x with
  | error e => exact nomatch h
  | ok a => exact ⟨a, rfl, h⟩

/-- A text that was read is empty only if its default is. -/
theorem texts_of_ofFields (h : ofFields settings now fs = .ok o) :
    (o.version = "" → settings.version = "") ∧ (o.exportedAt = "" → now = "") := by
  rw [ofFields] at h
  obtain ⟨format, -, h⟩ := ok_of_bind h
  obtain ⟨version, hversion, h⟩ := ok_of_bind h
  obtain ⟨assets, -, h⟩ := ok_of_bind h
  obtain ⟨exportedAt, hexported, h⟩ := ok_of_bind h
  obtain rfl := Except.ok.inj h
  refine ⟨?_, ?_⟩
  · rintro rfl
    exact default_of_readText hversion
  · rintro rfl
    exact default_of_readText hexported

/-- Options that are stored are read as they are. -/
theorem read_toJson (hv : o.version = "" → settings.version = "")
    (ht : o.exportedAt = "" → now = "") : read settings now (some o.toJson) = .ok o := by
  simp [toJson, read, ofFields, Fields.get?_cons, readFormat_name, readAssets_elim,
    readText_str hv, readText_str ht, readFlag_bool, readSelection_toJson, bind, Except.bind, pure,
    Except.pure]

/-- Stored options are read exactly if all demands on them are met, and the first that is not
decides the error, whatever the other fields hold. What was read is stored and read again, at any
later time, without a change. -/
theorem read_normal (settings : Settings) (now : String) (fs : Fields)
    (hp : Plain (some (.obj fs))) :
    ((∃ o, read settings now (some (.obj fs)) = .ok o) ↔ ∀ d ∈ demands, d.isMet fs) ∧
    (∀ d, unmet? fs demands = some d →
      ∃ e, read settings now (some (.obj fs)) = .error e ∧ e.code = d.code ∧ e.message?.isSome) ∧
    ∀ o, read settings now (some (.obj fs)) = .ok o → ∀ later, (now = "" → later = "") →
      read settings later (some o.toJson) = .ok o := by
  refine ⟨exists_ofFields_iff.trans unmet?_eq_none_iff, fun d hu => ?_, fun o ho later hl => ?_⟩
  · obtain ⟨j, -, he⟩ := ofFields_of_unmet settings now hu
    exact ⟨_, he, code_refuse (List.mem_of_find?_eq_some hu) j, message?_isSome hp he⟩
  · obtain ⟨hversion, hexported⟩ := texts_of_ofFields ho
    exact read_toJson hversion (hl ∘ hexported)

/-- Three wrong fields, of which the version decides, and loose values that are read once and for
all. -/
theorem drafts_read :
    let settings := Settings.ofEnvironment fun _ => none
    let wrong : Fields := [("exported_at", .bool true), ("include_assets", .str "zip"),
      ("version", .arr []), ("include_sheets", .str "0")]
    let loose : Fields := [("format", .str "ink"), ("version", .str ""),
      ("flow_ids", .arr [.str "2", .null]), ("include_flows", .str "0"),
      ("include_assets", .bool false)]
    Plain (some (.obj wrong)) ∧ Plain (some (.obj loose)) ∧
    (∃ e, read settings "today" (some (.obj wrong)) = .error e ∧ e.code = "INVALID_OPTIONS" ∧
      e.message?.isSome) ∧
    ∃ o, read settings "today" (some (.obj loose)) = .ok o ∧ o.flowIds = .only ["2"] ∧
      read settings "tomorrow" (some o.toJson) = .ok o := by
  intro settings wrong loose
  have hwrong : Plain (some (.obj wrong)) := plain_obj_iff.mpr (by decide)
  have hloose : Plain (some (.obj loose)) := plain_obj_iff.mpr (by decide)
  obtain ⟨-, hfirst, -⟩ := read_normal settings "today" wrong hwrong
  obtain ⟨hiff, -, hagain⟩ := read_normal settings "today" loose hloose
  obtain ⟨o, ho⟩ := hiff.mpr (by decide)
  refine ⟨hwrong, hloose, hfirst (.text "version") rfl, o, ho, ?_,
    hagain o ho "tomorrow" (by decide)⟩
  obtain rfl := Except.ok.inj ho
  rfl

end Options

end StoryFlow
