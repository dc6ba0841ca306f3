import StoryFlow.Csv
import StoryFlow.Proofs.Number.Text

/-! # Reading tables

A reader passes over a table character by character. It cuts records at line feeds and fields at
commas, but not inside a field that starts with a quote: that one runs to its closing quote, and two
quotes in it stand for one. What is written for a table is read as its header and its rows.
-/

namespace StoryFlow.Csv

/-- Where a reader stands in a field. Behind a quote of a quoted field the next character tells
whether the quote has closed the field or stands for one. -/
inductive Place where
  | start | bare | quoted | behindQuote
deriving DecidableEq

/-- Records of fields. -/
abbrev Records := List (List (List Char))

/-- Puts characters in front of the first field. -/
def Records.prepend (cs : List Char) (records : Records) : Records :=
  records.modifyHead fun fields => fields.modifyHead (cs ++ ·)

/-- Puts an empty field in front of the first record. -/
def Records.comma (records : Records) : Records :=
  records.modifyHead ([] :: ·)

/-- Puts an empty record in front. -/
def Records.feed (records : Records) : Records :=
  [[]] :: records

/-- The records of what is left of a table. There are none where a quoted field is not closed, or
goes on behind its closing quote, and where a quote stands in a field that is not quoted. -/
def scan : Place → List Char → Option Records
  | .quoted, [] => none
  | _, [] => some [[[]]]
  | .quoted, c :: cs =>
    if c = '"' then scan .behindQuote cs else (scan .quoted cs).map (.prepend [c])
  | place, c :: cs =>
    if c = ',' then (scan .start cs).map .comma
    else if c = '\n' then (scan .start cs).map .feed
    else
      match place with
      | .start => if c = '"' then scan .quoted cs else (scan .bare cs).map (.prepend [c])
      | .behindQuote => if c = '"' then (scan .quoted cs).map (.prepend [c]) else none
      | _ => if c = '"' then none else (scan .bare cs).map (.prepend [c])

/-- Reads a table. -/
def read (s : String) : Option (List (List String)) :=
  (scan .start s.toList).map (List.map (List.map String.ofList))

/-- What a field holds. -/
def Field.value : Field → String
  | .blank => ""
  | .text s => s
  | .number n => n.text
  | .flag b => toString b

theorem Field.value_eq (f : Field) : f.value = String.ofList f.plain := by
  cases f with
  | blank => rfl
  | text s => exact (String.ofList_toList).symm
  | number n => rfl
  | flag b => cases b <;> rfl

section Scan

variable {place : Place} {c : Char} {cs rest : List Char}

theorem Records.prepend_nil : Records.prepend [] = id := by
  funext records
  cases records with
  | nil => rfl
  | cons fields records => cases fields <;> rfl

theorem Records.prepend_comp (cs ds : List Char) :
    Records.prepend cs ∘ Records.prepend ds = Records.prepend (cs ++ ds) := by
  funext records
  cases records with
  | nil => rfl
  | cons fields records => cases fields <;> simp [prepend]

theorem scan_comma (h : place ≠ .quoted) (cs : List Char) :
    scan place (',' :: cs) = (scan .start cs).map .comma := by
  cases place <;> simp_all [scan]

theorem scan_feed (h : place ≠ .quoted) (cs : List Char) :
    scan place ('\n' :: cs) = (scan .start cs).map .feed := by
  cases place <;> simp_all [scan]

theorem scan_bare (hc : isSpecial c = false) (h : place = .start ∨ place = .bare)
    (cs : List Char) : scan place (c :: cs) = (scan .bare cs).map (.prepend [c]) := by
  simp only [isSpecial, Bool.or_eq_false_iff, beq_eq_false_iff_ne] at hc
  obtain ⟨⟨⟨hcomma, hquote⟩, hfeed⟩, -⟩ := hc
  rcases h with rfl | rfl <;> simp [scan, hcomma, hquote, hfeed]

/-- Nothing of a field is left. -/
def EndsField (rest : List Char) : Prop :=
  ∀ c ∈ rest.head?, c = ',' ∨ c = '\n'

theorem EndsField.scan_eq (h : EndsField rest) (hplace : place ≠ .quoted) :
    scan place rest = scan .start rest := by
  cases rest with
  | nil => cases place <;> simp_all [scan]
  | cons c cs =>
    rcases h c rfl with rfl | rfl
    · rw [scan_comma hplace, scan_comma (by decide)]
    · rw [scan_feed hplace, scan_feed (by decide)]

theorem scan_plain (hcs : ∀ c ∈ cs, isSpecial c = false) (hrest : EndsField rest)
    (h : place = .start ∨ place = .bare) :
    scan place (cs ++ rest) = (scan .start rest).map (.prepend cs) := by
  induction cs generalizing place with
  | nil =>
    have hplace : place ≠ .quoted := by rcases h with rfl | rfl <;> decide
    rw [List.nil_append, hrest.scan_eq hplace, Records.prepend_nil, Option.map_id_apply]
  | cons c cs ih =>
    rw [List.forall_mem_cons] at hcs
    rw [List.cons_append, scan_bare hcs.1 h, ih hcs.2 (Or.inr rfl), Option.map_map,
      Records.prepend_comp, List.singleton_append]

theorem scan_quoted (cs rest : List Char) :
    scan .quoted (doubleQuotes cs ++ '"' :: rest) =
      (scan .behindQuote rest).map (.prepend cs) := by
  induction cs with
  | nil => simp [doubleQuotes, scan, Records.prepend_nil]
  | cons c cs ih =>
    have hcons : doubleQuotes (c :: cs) =
        (if c = '"' then ['"', '"'] else [c]) ++ doubleQuotes cs := List.flatMap_cons
    have hread : scan .quoted (doubleQuotes (c :: cs) ++ '"' :: rest) =
        (scan .quoted (doubleQuotes cs ++ '"' :: rest)).map (.prepend [c]) := by
      rw [hcons]
      split <;> rename_i hc <;> simp [scan, hc]
    rw [hread, ih, Option.map_map, Records.prepend_comp, List.singleton_append]

theorem scan_field (f : Field) (hrest : EndsField rest) :
    scan .start (f.chars ++ rest) = (scan .start rest).map (.prepend f.plain) := by
  have hplain (cs : List Char) (hcs : ∀ c ∈ cs, isSpecial c = false) :
      scan .start (cs ++ rest) = (scan .start rest).map (.prepend cs) :=
    scan_plain hcs hrest (Or.inl rfl)
  cases f with
  | blank => exact hplain [] (List.forall_mem_nil _)
  | text s =>
    rw [Field.chars, textChars, Field.plain]
    have hbehind : scan .behindQuote rest = scan .start rest := hrest.scan_eq (by decide)
    split
    · rw [← hbehind, ← scan_quoted]
      simp [scan]
    · rename_i h
      exact hplain _ fun c hc => by simpa using fun hs => h (List.any_eq_true.mpr ⟨c, hc, hs⟩)
  | number n =>
    refine hplain n.chars fun c hc => ?_
    rcases n.isPrinted_chars c hc with h | rfl | rfl | rfl
    · have hne (d : Char) (hd : d.isAlphanum = false) : c ≠ d := fun he => by simp [he, hd] at h
      simp [isSpecial, hne ',' rfl, hne '"' rfl, hne '\n' rfl, hne '\r' rfl]
    · rfl
    · rfl
    · rfl
  | flag b =>
    have hall : (Field.flag b).plain.all (!isSpecial ·) := by cases b <;> rfl
    exact hplain _ fun c hc => by simpa using List.all_eq_true.mp hall c hc

end Scan

section Table

variable {rest : List Char} {records : Records} {row : List Field} {rows : List (List Field)}

theorem scan_row (hrow : row ≠ []) (hrest : ∀ c ∈ rest.head?, c = '\n')
    (h : scan .start rest = some ([[]] :: records)) :
    scan .start (rowChars row ++ rest) = some (row.map Field.plain :: records) := by
  have hends : EndsField rest := fun c hc => Or.inr (hrest c hc)
  induction row with
  | nil => exact absurd rfl hrow
  | cons f row ih =>
    cases row with
    | nil =>
      simp [rowChars, scan_field f hends, h, Records.prepend]
    | cons g row =>
      have hcomma : EndsField (',' :: (rowChars (g :: row) ++ rest)) := fun c hc =>
        Or.inl (Option.some.inj hc).symm
      have hchars : rowChars (f :: g :: row) ++ rest =
          f.chars ++ ',' :: (rowChars (g :: row) ++ rest) := by
        simp [rowChars, List.intercalate_cons_cons]
      rw [hchars, scan_field f hcomma, scan_comma (by decide), ih (by simp)]
      simp [Records.comma, Records.prepend]

theorem scan_rows (hrows : rows ≠ []) (h : ∀ row ∈ rows, row ≠ []) :
    scan .start (['\n'].intercalate (rows.map rowChars)) =
      some (rows.map (List.map Field.plain)) := by
  induction rows with
  | nil => exact absurd rfl hrows
  | cons row rows ih =>
    rw [List.forall_mem_cons] at h
    cases rows with
    | nil =>
      have hrow : scan .start (rowChars row ++ []) = some [row.map Field.plain] :=
        scan_row h.1 (by simp) rfl
      simpa using hrow
    | cons next rows =>
      have hfeed : scan .start ('\n' :: ['\n'].intercalate ((next :: rows).map rowChars)) =
          some ([[]] :: (next :: rows).map (List.map Field.plain)) := by
        rw [scan_feed (by decide), ih (by simp) h.2]
        rfl
      have hrow := scan_row h.1 (by simp) hfeed
      simpa [List.intercalate_cons_cons] using hrow

end Table

/-- What is written for a table is read as its header and its rows. -/
theorem read_write (header : List String) (rows : List (List Field)) (hheader : header ≠ [])
    (hrows : ∀ row ∈ rows, row ≠ []) :
    read (write header rows) = some (header :: rows.map (List.map Field.value)) := by
  have hscan : scan .start (tableChars header rows) =
      some ((header.map .text :: rows).map (List.map Field.plain)) := by
    rw [tableChars, ← List.map_cons]
    exact scan_rows (by simp) (List.forall_mem_cons.mpr ⟨by simpa using hheader, hrows⟩)
  have hplain : (header.map fun s => String.ofList (Field.text s).plain) = header := by
    simp [Field.plain]
  rw [read, write, String.toList_ofList, hscan]
  simp [hplain, Field.value_eq, Function.comp_def]

/-- Rows with all characters that force quotes, and with fields that are not texts. -/
def remarks : List (List Field) :=
  [[.text "a,b", .ofNat 30], [.text "\"\n\r\"", .flag true], [.blank]]

theorem remarks_read_write :
    ["Name", "\"quoted\""] ≠ [] ∧ (∀ row ∈ remarks, row ≠ []) ∧
      read (write ["Name", "\"quoted\""] remarks) =
        some [["Name", "\"quoted\""], ["a,b", "30"], ["\"\n\r\"", "true"], [""]] := by
  have hheader : ["Name", "\"quoted\""] ≠ [] := by decide
  have hrows : ∀ row ∈ remarks, row ≠ [] := by decide
  exact ⟨hheader, hrows, (read_write _ _ hheader hrows).trans (by decide +kernel)⟩

end StoryFlow.Csv
