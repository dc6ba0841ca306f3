import StoryFlow.Proofs.Json.Layout
import StoryFlow.Proofs.Json.Quoted

/-! # Printed documents are read

The text of a document whose fields are in order reads as that document, with zeros without a sign
and `null` for the numbers that are not finite. The induction carries any text behind the document
that does not go on with a number.
-/

namespace StoryFlow.Json

variable {w rest : List Char} {n depth : Nat} {c : Char}

theorem skipSpace_append (hw : ∀ c ∈ w, isSpace c) : skipSpace (w ++ rest) = skipSpace rest :=
  List.dropWhile_append_of_pos hw

theorem skipSpace_cons (hc : isSpace c = false) : skipSpace (c :: rest) = c :: rest :=
  List.dropWhile_cons_of_neg (by simp [hc])

theorem endsNumber_space (hw : ∀ c ∈ w, isSpace c) (hr : EndsNumber rest) :
    EndsNumber (w ++ rest) := by
  cases w with
  | nil => exact hr
  | cons c w =>
    have hc : isSpace c := hw c List.mem_cons_self
    simp only [isSpace, Bool.or_eq_true, beq_iff_eq] at hc
    intro d hd
    obtain rfl : c = d := by simpa using hd
    rcases hc with ((rfl | rfl) | rfl) | rfl <;> decide

theorem endsNumber_cons (hc : c.isDigit = false ∧ c ≠ '.' ∧ c ≠ 'e' ∧ c ≠ 'E') :
    EndsNumber (c :: rest) := by
  intro d hd
  obtain rfl : c = d := by simpa using hd
  exact hc

theorem head_number (hc : c.isDigit ∨ c = '-') : isSpace c = false ∧ c ≠ ']' := by
  rw [isSpace]
  constructor
  · by_contra h
    simp only [Bool.not_eq_false, Bool.or_eq_true, beq_iff_eq] at h
    rcases h with ((rfl | rfl) | rfl) | rfl <;> revert hc <;> decide
  · rintro rfl
    revert hc
    decide

theorem readValue_number (hc : c.isDigit ∨ c = '-') :
    readValue (n + 1) (c :: w) =
      (readNumber (c :: w)).map fun (x, rest) => (.num x, rest) := by
  have hne : c ≠ '"' ∧ c ≠ '[' ∧ c ≠ '\x7b' ∧ c ≠ 't' ∧ c ≠ 'f' ∧ c ≠ 'n' := by
    refine ⟨?_, ?_, ?_, ?_, ?_, ?_⟩ <;> rintro rfl <;> revert hc <;> decide
  simp [readValue, hne]

namespace Layout

variable {l : Layout}

theorem head_chars (l : Layout) (depth : Nat) (j : Json) :
    ∃ c cs, l.chars depth j = c :: cs ∧ isSpace c = false ∧ c ≠ ']' := by
  match j with
  | .null => exact ⟨'n', _, rfl, by decide⟩
  | .bool true => exact ⟨'t', _, rfl, by decide⟩
  | .bool false => exact ⟨'f', _, rfl, by decide⟩
  | .num n =>
    rw [chars, scalarNumber]
    split
    · rename_i hn
      obtain ⟨c, cs, hcs, hc⟩ := Number.head_chars hn
      exact ⟨c, cs, hcs, head_number hc⟩
    · exact ⟨'n', _, rfl, by decide⟩
  | .str s => exact ⟨'"', _, rfl, by decide⟩
  | .arr [] | .arr (_ :: _) => exact ⟨'[', _, by rw [chars], by decide⟩
  | .obj [] | .obj (_ :: _) => exact ⟨'\x7b', _, by rw [chars], by decide⟩

theorem skipSpace_chars (j : Json) :
    skipSpace (l.chars depth j ++ rest) = l.chars depth j ++ rest := by
  obtain ⟨c, cs, hcs, hc, -⟩ := l.head_chars depth j
  rw [hcs, List.cons_append, skipSpace_cons hc]

theorem endsNumber_items (xs : List Json) : EndsNumber (l.items depth xs ++ rest) := by
  cases xs with
  | nil =>
    rw [items, List.append_assoc]
    exact endsNumber_space (l.isSpace_line depth) (endsNumber_cons (by decide))
  | cons x xs =>
    rw [items, List.cons_append]
    exact endsNumber_cons (by decide)

theorem endsNumber_fields (fs : Fields) : EndsNumber (l.fields depth fs ++ rest) := by
  cases fs with
  | nil =>
    rw [fields, List.append_assoc]
    exact endsNumber_space (l.isSpace_line depth) (endsNumber_cons (by decide))
  | cons f fs =>
    rw [fields, List.cons_append]
    exact endsNumber_cons (by decide)

/-- The text of the document, at any depth, is read as that document and what follows it is left. -/
def Reads (l : Layout) (j : Json) : Prop :=
  ∀ n depth rest, (l.chars depth j).length < n → EndsNumber rest →
    readValue n (l.chars depth j ++ rest) = some (j.printed, rest)

theorem readItems_items (rest : List Char) (x : Json) (xs : List Json)
    (h : ∀ j ∈ x :: xs, l.Reads j)
    (hn : (l.chars (depth + 1) x ++ l.items depth xs).length < n) :
    readItems n (l.chars (depth + 1) x ++ (l.items depth xs ++ rest)) =
      some ((x :: xs).map printed, rest) := by
  induction xs generalizing x n with
  | nil =>
    obtain ⟨n, rfl⟩ := Nat.exists_eq_add_one_of_ne_zero (Nat.ne_zero_of_lt hn)
    simp only [items, List.length_append, List.length_singleton] at hn
    have hx := h x List.mem_cons_self n (depth + 1) (l.items depth [] ++ rest) (by omega)
      (endsNumber_items [])
    have hend : skipSpace (l.items depth [] ++ rest) = ']' :: rest := by
      rw [items, List.append_assoc, skipSpace_append (l.isSpace_line depth)]
      rfl
    simp [readItems, hx, hend]
  | cons y ys ih =>
    obtain ⟨n, rfl⟩ := Nat.exists_eq_add_one_of_ne_zero (Nat.ne_zero_of_lt hn)
    simp only [items, List.length_append, List.length_cons] at hn
    have hx := h x List.mem_cons_self n (depth + 1) (l.items depth (y :: ys) ++ rest) (by omega)
      (endsNumber_items (y :: ys))
    have hcomma : skipSpace (l.items depth (y :: ys) ++ rest) =
        ',' :: (l.line (depth + 1) ++ (l.chars (depth + 1) y ++ (l.items depth ys ++ rest))) := by
      rw [items, List.cons_append, skipSpace_cons rfl]
      simp
    have hys := ih y (fun j hj => h j (List.mem_cons_of_mem x hj)) (n := n)
      (by rw [List.length_append]; omega)
    simp [readItems, hx, hcomma, skipSpace_append (l.isSpace_line (depth + 1)), skipSpace_chars,
      hys]

/-- A field that the closing brace follows is the last one. -/
theorem readFields_last {k : String} {v : Json} {after : List Char} (hv : l.Reads v)
    (hn : (l.chars depth v).length < n) (hafter : EndsNumber after)
    (hend : skipSpace after = '\x7d' :: rest) :
    readFields (n + 1) (quoted k ++ (':' :: (l.gap ++ (l.chars depth v ++ after)))) =
      some ([(k, v.printed)], rest) := by
  obtain ⟨cs, hcs, hkey⟩ := readQuoted_quoted k (':' :: (l.gap ++ (l.chars depth v ++ after)))
  have hvalue := hv n depth after hn hafter
  simp [hcs, readFields, hkey, skipSpace_cons (c := ':') rfl, skipSpace_append l.isSpace_gap,
    skipSpace_chars, hvalue, hend]

/-- Behind a field and a comma the fields that follow are read. -/
theorem readFields_next {k : String} {v : Json} {fs : Fields} {after more : List Char}
    (hv : l.Reads v) (hn : (l.chars depth v).length < n) (hafter : EndsNumber after)
    (hcomma : skipSpace after = ',' :: more)
    (hmore : readFields n (skipSpace more) = some (fs, rest)) :
    readFields (n + 1) (quoted k ++ (':' :: (l.gap ++ (l.chars depth v ++ after)))) =
      some ((k, v.printed) :: fs, rest) := by
  obtain ⟨cs, hcs, hkey⟩ := readQuoted_quoted k (':' :: (l.gap ++ (l.chars depth v ++ after)))
  have hvalue := hv n depth after hn hafter
  simp [hcs, readFields, hkey, skipSpace_cons (c := ':') rfl, skipSpace_append l.isSpace_gap,
    skipSpace_chars, hvalue, hcomma, hmore]

theorem readFields_fields (rest : List Char) (k : String) (v : Json) (fs : Fields)
    (h : ∀ f ∈ (k, v) :: fs, l.Reads f.2)
    (hn : (l.chars (depth + 1) v ++ l.fields depth fs).length < n) :
    readFields n (quoted k ++ (':' :: (l.gap ++ (l.chars (depth + 1) v ++
        (l.fields depth fs ++ rest))))) =
      some (Fields.mapValues printed ((k, v) :: fs), rest) := by
  obtain ⟨n, rfl⟩ := Nat.exists_eq_add_one_of_ne_zero (Nat.ne_zero_of_lt hn)
  have hv : l.Reads v := h (k, v) List.mem_cons_self
  induction fs generalizing k v n with
  | nil =>
    simp only [fields, List.length_append, List.length_singleton] at hn
    have hend : skipSpace (l.fields depth [] ++ rest) = '\x7d' :: rest := by
      rw [fields, List.append_assoc, skipSpace_append (l.isSpace_line depth)]
      rfl
    exact readFields_last hv (by omega) (endsNumber_fields []) hend
  | cons g gs ih =>
    obtain ⟨k', v'⟩ := g
    simp only [fields, List.length_append, List.length_cons] at hn
    obtain ⟨n, rfl⟩ := Nat.exists_eq_add_one_of_ne_zero (n := n) (by omega)
    have hcomma : skipSpace (l.fields depth ((k', v') :: gs) ++ rest) =
        ',' :: (l.line (depth + 1) ++ (quoted k' ++ (':' :: (l.gap ++
          (l.chars (depth + 1) v' ++ (l.fields depth gs ++ rest)))))) := by
      rw [fields, List.cons_append, skipSpace_cons rfl]
      simp
    have hquote (cs : List Char) : skipSpace (quoted k' ++ cs) = quoted k' ++ cs := rfl
    have htail := List.forall_mem_of_forall_mem_cons h
    have hmore := ih k' v' htail n (by rw [List.length_append]; omega)
      (htail (k', v') List.mem_cons_self)
    refine readFields_next hv (by omega) (endsNumber_fields _) hcomma ?_
    rw [skipSpace_append (l.isSpace_line (depth + 1)), hquote]
    exact hmore

theorem reads_number (x : Number) : l.Reads (.num x) := by
  intro n depth rest hn hr
  obtain ⟨n, rfl⟩ := Nat.exists_eq_add_one_of_ne_zero (Nat.ne_zero_of_lt hn)
  rw [chars, scalarNumber, printed, mapNumbers]
  split
  · rename_i hx
    obtain ⟨c, cs, hcs, hc⟩ := Number.head_chars hx
    have hread := readNumber_chars hx hr
    rw [hcs, List.cons_append] at hread ⊢
    rw [readValue_number hc, hread]
    rfl
  · rfl

theorem reads_string (s : String) : l.Reads (.str s) := by
  intro n depth rest hn _
  obtain ⟨n, rfl⟩ := Nat.exists_eq_add_one_of_ne_zero (Nat.ne_zero_of_lt hn)
  obtain ⟨cs, hcs, hread⟩ := readQuoted_quoted s rest
  simp [chars, hcs, readValue, hread, printed, mapNumbers]

theorem reads_items {items : List Json} (h : ∀ j ∈ items, l.Reads j) : l.Reads (.arr items) := by
  intro n depth rest hn _
  obtain ⟨n, rfl⟩ := Nat.exists_eq_add_one_of_ne_zero (Nat.ne_zero_of_lt hn)
  cases items with
  | nil => rfl
  | cons x xs =>
    rw [chars, List.length_cons, Nat.add_lt_add_iff_right] at hn
    obtain ⟨c, cs, hcs, hspace, hc⟩ := l.head_chars (depth + 1) x
    have hlength : (l.chars (depth + 1) x ++ l.items depth xs).length < n := by
      simp only [List.length_append] at hn ⊢
      omega
    have hread := readItems_items rest x xs h hlength
    rw [hcs, List.cons_append] at hread
    simp [chars, readValue, skipSpace_append (l.isSpace_line (depth + 1)), skipSpace_cons hspace,
      hcs, hc, hread]

theorem reads_fields {fs : Fields} (hq : fs.Ordered) (h : ∀ f ∈ fs, l.Reads f.2) :
    l.Reads (.obj fs) := by
  intro n depth rest hn _
  obtain ⟨n, rfl⟩ := Nat.exists_eq_add_one_of_ne_zero (Nat.ne_zero_of_lt hn)
  have hfs : ofFields (fs.mapValues printed) = .obj (fs.mapValues printed) := by
    rw [ofFields, Fields.ofList_eq_self (Fields.ordered_mapValues.mpr hq)]
  cases fs with
  | nil => rfl
  | cons f fs =>
    obtain ⟨k, v⟩ := f
    rw [chars, List.length_cons, Nat.add_lt_add_iff_right] at hn
    have hlength : (l.chars (depth + 1) v ++ l.fields depth fs).length < n := by
      simp only [List.length_append] at hn ⊢
      omega
    have hread := readFields_fields rest k v fs h hlength
    obtain ⟨cs, hcs, -⟩ := readQuoted_quoted k (':' :: (l.gap ++ (l.chars (depth + 1) v ++
      (l.fields depth fs ++ rest))))
    rw [hcs] at hread
    simp [chars, readValue, skipSpace_append (l.isSpace_line (depth + 1)),
      skipSpace_cons (c := '"') rfl, hcs, hread, hfs]

theorem reads {j : Json} (hj : j.Proper) : l.Reads j := by
  induction hj with
  | null =>
    intro n depth rest hn _
    obtain ⟨n, rfl⟩ := Nat.exists_eq_add_one_of_ne_zero (Nat.ne_zero_of_lt hn)
    rfl
  | bool b =>
    intro n depth rest hn _
    obtain ⟨n, rfl⟩ := Nat.exists_eq_add_one_of_ne_zero (Nat.ne_zero_of_lt hn)
    cases b <;> rfl
  | num _ => exact reads_number _
  | str s => exact reads_string s
  | arr _ ih => exact reads_items ih
  | obj hq _ ih => exact reads_fields hq ih

end Layout

/-- Printing a document and reading the text gives the document that the text spells. -/
theorem read?_text {j : Json} (hj : j.Proper) (isPretty : Bool) :
    read? (j.text isPretty) = some j.printed := by
  have hread (l : Layout) : readChars (l.chars 0 j) = some j.printed := by
    have hvalue := l.reads hj ((l.chars 0 j).length + 1) 0 [] (Nat.lt_succ_self _)
      (by simp [EndsNumber])
    have hspace : skipSpace (l.chars 0 j ++ []) = l.chars 0 j ++ [] :=
      Layout.skipSpace_chars j
    rw [List.append_nil] at hvalue hspace
    rw [readChars, hspace, hvalue]
    rfl
  cases isPretty
  · simpa [text, compact, read?, Layout.chars_compact] using hread .compact
  · simpa [text, pretty, read?, Layout.chars_pretty] using hread .pretty

/-! ## Order of what is read -/

theorem proper_readItems (hvalue : ∀ {cs j rest}, readValue n cs = some (j, rest) → j.Proper)
    (hitems : ∀ {cs items rest}, readItems n cs = some (items, rest) → ∀ j ∈ items, j.Proper)
    {cs : List Char} {items : List Json} (h : readItems (n + 1) cs = some (items, rest)) :
    ∀ j ∈ items, j.Proper := by
  simp only [readItems, Option.bind_eq_bind, Option.bind_eq_some_iff] at h
  obtain ⟨⟨x, after⟩, hx, h⟩ := h
  split at h
  · obtain ⟨rfl, -⟩ := Prod.mk.inj (Option.some.inj h)
    exact List.forall_mem_singleton.mpr (hvalue hx)
  · obtain ⟨⟨xs, after⟩, hxs, h⟩ := Option.bind_eq_some_iff.mp h
    obtain ⟨rfl, -⟩ := Prod.mk.inj (Option.some.inj h)
    exact List.forall_mem_cons.mpr ⟨hvalue hx, hitems hxs⟩
  · exact nomatch h

theorem proper_readFields (hvalue : ∀ {cs j rest}, readValue n cs = some (j, rest) → j.Proper)
    (hfields : ∀ {cs fs rest}, readFields n cs = some (fs, rest) → ∀ f ∈ fs, f.2.Proper)
    {cs : List Char} {fs : List (String × Json)} (h : readFields (n + 1) cs = some (fs, rest)) :
    ∀ f ∈ fs, f.2.Proper := by
  simp only [readFields, Option.bind_eq_bind] at h
  split at h
  · obtain ⟨⟨k, after⟩, -, h⟩ := Option.bind_eq_some_iff.mp h
    split at h
    · obtain ⟨⟨v, after⟩, hv, h⟩ := Option.bind_eq_some_iff.mp h
      split at h
      · obtain ⟨rfl, -⟩ := Prod.mk.inj (Option.some.inj h)
        exact List.forall_mem_singleton.mpr (hvalue hv)
      · obtain ⟨⟨fs, after⟩, hfs, h⟩ := Option.bind_eq_some_iff.mp h
        obtain ⟨rfl, -⟩ := Prod.mk.inj (Option.some.inj h)
        exact List.forall_mem_cons.mpr ⟨hvalue hv, hfields hfs⟩
      · exact nomatch h
    · exact nomatch h
  · exact nomatch h

theorem proper_readValue {cs : List Char} {j : Json} (h : readValue n cs = some (j, rest)) :
    j.Proper := by
  suffices hall : ∀ n, (∀ {cs j rest}, readValue n cs = some (j, rest) → j.Proper) ∧
      (∀ {cs items rest}, readItems n cs = some (items, rest) → ∀ j ∈ items, j.Proper) ∧
      (∀ {cs fs rest}, readFields n cs = some (fs, rest) → ∀ f ∈ fs, f.2.Proper) from (hall n).1 h
  clear h
  intro n
  induction n with
  | zero => simp [readValue, readItems, readFields]
  | succ n ih =>
    obtain ⟨hvalue, hitems, hfields⟩ := ih
    refine ⟨fun {cs j rest} h => ?_, proper_readItems hvalue hitems,
      proper_readFields hvalue hfields⟩
    rw [readValue.eq_def] at h
    dsimp only at h
    split at h
    · obtain ⟨_, -, h⟩ := Option.map_eq_some_iff.mp h
      obtain ⟨rfl, -⟩ := Prod.mk.inj h
      exact .str _
    · split at h
      · obtain ⟨rfl, -⟩ := Prod.mk.inj (Option.some.inj h)
        exact .arr (List.forall_mem_nil _)
      · obtain ⟨_, hread, h⟩ := Option.map_eq_some_iff.mp h
        obtain ⟨rfl, -⟩ := Prod.mk.inj h
        exact .arr (hitems hread)
    · split at h
      · obtain ⟨rfl, -⟩ := Prod.mk.inj (Option.some.inj h)
        exact .obj List.Pairwise.nil (List.forall_mem_nil _)
      · obtain ⟨_, hread, h⟩ := Option.map_eq_some_iff.mp h
        obtain ⟨rfl, -⟩ := Prod.mk.inj h
        exact .obj (Fields.ordered_ofList _) fun f hf => hfields hread f (Fields.mem_ofList hf)
    · obtain ⟨rfl, -⟩ := Prod.mk.inj (Option.some.inj h)
      exact .bool true
    · obtain ⟨rfl, -⟩ := Prod.mk.inj (Option.some.inj h)
      exact .bool false
    · obtain ⟨rfl, -⟩ := Prod.mk.inj (Option.some.inj h)
      exact .null
    · obtain ⟨_, -, h⟩ := Option.map_eq_some_iff.mp h
      obtain ⟨rfl, -⟩ := Prod.mk.inj h
      exact .num trivial

/-- The fields of every object that is read are in order. -/
theorem proper_read? {s : String} {j : Json} (h : read? s = some j) : j.Proper := by
  simp only [read?, readChars, Option.bind_eq_bind, Option.bind_eq_some_iff] at h
  obtain ⟨⟨value, rest⟩, hvalue, h⟩ := h
  dsimp only at h
  rw [Option.ite_none_right_eq_some] at h
  obtain ⟨-, h⟩ := h
  obtain rfl := Option.some.inj h
  exact proper_readValue hvalue

end StoryFlow.Json
