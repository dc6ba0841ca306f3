import StoryFlow.Proofs.Expr.LineBreaks
import StoryFlow.Proofs.Text.Escapes

/-! # Literals can be read back

The literal of a text is one token. It is the text itself, or it stands in quotes with no quote bare
between them and decodes to the text without its NUL characters. A bare literal starts with no
quote, so texts without NUL characters have different literals.
-/

namespace StoryFlow.Literal

open Text

def Digits (cs : List Char) : Prop :=
  cs ≠ [] ∧ ∀ c ∈ cs, c.isDigit

/-- Digits, optionally a point and more digits. -/
inductive Unsigned : List Char → Prop
  | whole {ds} (h : Digits ds) : Unsigned ds
  | decimal {ds fs} (h : Digits ds) (hf : Digits fs) : Unsigned (ds ++ '.' :: fs)

/-- Optionally a minus sign in front. -/
inductive Numeral : List Char → Prop
  | positive {cs} (h : Unsigned cs) : Numeral cs
  | negative {cs} (h : Unsigned cs) : Numeral ('-' :: cs)

variable {c : Char} {cs : List Char}

theorem areDigits_iff : areDigits cs ↔ Digits cs := by
  simp [areDigits, Digits]

theorem isUnsignedNumeral_iff : isUnsignedNumeral cs ↔ Unsigned cs := by
  constructor
  · intro h
    unfold isUnsignedNumeral at h
    split at h
    · exact .whole (areDigits_iff.mp h)
    · rename_i c rest hd
      simp only [Bool.and_eq_true, beq_iff_eq, areDigits_iff] at h
      obtain ⟨⟨rfl, hwhole⟩, hrest⟩ := h
      rw [← List.takeWhile_append_dropWhile (p := Char.isDigit) (l := cs), hd]
      exact .decimal hwhole hrest
  · intro h
    cases h with
    | whole h =>
      have hd : cs.dropWhile Char.isDigit = [] := List.dropWhile_eq_nil_iff.mpr h.2
      rw [isUnsignedNumeral, hd]
      exact areDigits_iff.mpr h
    | @decimal ds fs h hf =>
      have hpoint : ¬ Char.isDigit '.' := by decide
      simp [isUnsignedNumeral, List.dropWhile_append_of_pos h.2, List.takeWhile_append_of_pos h.2,
        hpoint, areDigits_iff.mpr h, areDigits_iff.mpr hf]

theorem Unsigned.head_isDigit (h : Unsigned (c :: cs)) : c.isDigit := by
  generalize he : c :: cs = ds at h
  cases h with
  | whole h => exact h.2 c (he ▸ List.mem_cons_self)
  | @decimal ds fs h hf =>
    cases ds with
    | nil => exact absurd rfl h.1
    | cons d ds =>
      obtain ⟨rfl, -⟩ := List.cons.inj he
      exact h.2 c List.mem_cons_self

theorem isNumeral_iff : isNumeral cs ↔ Numeral cs := by
  constructor
  · intro h
    unfold isNumeral at h
    split at h
    · exact .negative (isUnsignedNumeral_iff.mp h)
    · exact .positive (isUnsignedNumeral_iff.mp h)
  · intro h
    cases h with
    | positive h =>
      unfold isNumeral
      split
      · exact absurd h.head_isDigit (by decide)
      · exact isUnsignedNumeral_iff.mpr h
    | negative h => exact isUnsignedNumeral_iff.mpr h

/-- The texts that are written without quotes. -/
def StandsBare (s : String) : Prop :=
  s = "true" ∨ s = "false" ∨ Numeral s.toList

theorem isBare_iff (s : String) : isBare s ↔ StandsBare s := by
  simp [isBare, StandsBare, isNumeral_iff, or_assoc]

section Decoding

/-- The character that stands escaped behind a backslash. -/
def escaped? : Char → Option Char
  | '\\' => some '\\'
  | '"' => some '"'
  | 'n' => some '\n'
  | 'r' => some '\r'
  | _ => none

/-- What is written between quotes; no other escapes are known. -/
def decode? : List Char → Option (List Char)
  | [] => some []
  | [c] => if c = '\\' then none else some [c]
  | c :: d :: cs =>
    if c = '\\' then do return (← escaped? d) :: (← decode? cs)
    else do return c :: (← decode? (d :: cs))

def withoutNul (cs : List Char) : List Char :=
  cs.filter (·.toNat ≠ 0)

theorem decode?_slash_cons (c : Char) (cs : List Char) :
    decode? ('\\' :: c :: cs) = do return (← escaped? c) :: (← decode? cs) := rfl

theorem decode?_cons_of_ne (hc : c ≠ '\\') (cs : List Char) :
    decode? (c :: cs) = (decode? cs).map (c :: ·) := by
  cases cs with
  | nil => simp [decode?, hc]
  | cons d cs =>
    rw [decode?, if_neg hc]
    cases decode? (d :: cs) <;> rfl

/-- A character is written behind a backslash, dropped or kept. -/
theorem quotedChar_cases (c : Char) :
    (∃ d, quotedChar c = ['\\', d] ∧ escaped? d = some c ∧ withoutNul [c] = [c]) ∨
      quotedChar c = [] ∧ withoutNul [c] = [] ∨
      c ≠ '\\' ∧ c ≠ '"' ∧ quotedChar c = [c] ∧ withoutNul [c] = [c] := by
  unfold quotedChar
  split
  · exact Or.inl ⟨'\\', by subst c; decide⟩
  · split
    · exact Or.inl ⟨'"', by subst c; decide⟩
    · split
      · exact Or.inl ⟨'n', by subst c; decide⟩
      · split
        · exact Or.inl ⟨'r', by subst c; decide⟩
        · split
          · rename_i h
            exact Or.inr (Or.inl ⟨rfl, by simp [withoutNul, h]⟩)
          · rename_i hslash hquote _ _ h
            exact Or.inr (Or.inr ⟨hslash, hquote, rfl, by simp [withoutNul, h]⟩)

theorem withoutNul_cons (c : Char) (cs : List Char) :
    withoutNul (c :: cs) = withoutNul [c] ++ withoutNul cs :=
  @List.filter_append _ _ [c] cs

theorem decode?_flatMap_quotedChar (cs : List Char) :
    decode? (cs.flatMap quotedChar) = some (withoutNul cs) := by
  induction cs with
  | nil => rfl
  | cons c cs ih =>
    rw [List.flatMap_cons, withoutNul_cons]
    rcases quotedChar_cases c with ⟨d, hq, hd, hc⟩ | ⟨hq, hc⟩ | ⟨hslash, -, hq, hc⟩ <;> rw [hq, hc]
    · simp [decode?_slash_cons, hd, ih]
    · exact ih
    · simp [decode?_cons_of_ne hslash, ih]

theorem not_bare_flatMap_quotedChar (cs : List Char) :
    ¬ Bare ['"'] (cs.flatMap quotedChar) := by
  induction cs with
  | nil => exact not_bare_nil
  | cons c cs ih =>
    rw [List.flatMap_cons]
    rcases quotedChar_cases c with ⟨d, hq, -, -⟩ | ⟨hq, -⟩ | ⟨hslash, hquote, hq, -⟩ <;> rw [hq]
    · exact (bare_slash_cons (by decide)).not.mpr ih
    · exact ih
    · refine (bare_cons_of_ne hslash).not.mpr (not_or.mpr ⟨?_, ih⟩)
      exact fun h => hquote (List.cons_prefix_cons.mp h).1.symm

end Decoding

section NoNul

def NoNul (cs : List Char) : Prop :=
  ∀ c ∈ cs, c.toNat ≠ 0

instance : DecidablePred NoNul := fun cs =>
  List.decidableBAll _ cs

@[simp] theorem noNul_nil : NoNul [] :=
  List.forall_mem_nil _

@[simp] theorem noNul_cons : NoNul (c :: cs) ↔ c.toNat ≠ 0 ∧ NoNul cs :=
  List.forall_mem_cons

@[simp] theorem noNul_append {ds : List Char} : NoNul (cs ++ ds) ↔ NoNul cs ∧ NoNul ds :=
  List.forall_mem_append

theorem noNul_of {p : Char → Bool} (hp : p '\x00' = false) (hc : p c) : c.toNat ≠ 0 := by
  intro h
  rw [← Char.ofNat_toNat c, h] at hc
  exact Bool.false_ne_true (hp.symm.trans hc)

theorem Digits.noNul (h : Digits cs) : NoNul cs :=
  fun c hc => noNul_of (by decide) (h.2 c hc)

theorem Unsigned.noNul (h : Unsigned cs) : NoNul cs := by
  cases h with
  | whole h => exact h.noNul
  | decimal h hf => exact noNul_append.mpr ⟨h.noNul, noNul_cons.mpr ⟨by decide, hf.noNul⟩⟩

theorem Numeral.noNul (h : Numeral cs) : NoNul cs := by
  cases h with
  | positive h => exact h.noNul
  | negative h => exact noNul_cons.mpr ⟨by decide, h.noNul⟩

theorem StandsBare.noNul {s : String} (h : StandsBare s) : NoNul s.toList := by
  rcases h with rfl | rfl | h
  · decide
  · decide
  · exact h.noNul

theorem noNul_quotedChar (a : Char) : NoNul (quotedChar a) := by
  unfold quotedChar
  split
  · decide
  · split
    · decide
    · split
      · decide
      · split
        · decide
        · split
          · exact noNul_nil
          · rename_i h
            exact noNul_cons.mpr ⟨h, noNul_nil⟩

end NoNul

/-- What is written for a text is one token that stays on its line: the text itself, or the text in
quotes. -/
structure Token (text written : String) : Prop where
  unbroken : Unbroken written
  noNul : NoNul written.toList
  bare : StandsBare text → written = text
  quoted : ¬ StandsBare text → ∃ body, written.toList = '"' :: (body ++ ['"']) ∧
    ¬ Bare ['"'] body ∧ decode? body = some (withoutNul text.toList)

theorem toList_quote (s : String) :
    (quote s).toList = '"' :: (s.toList.flatMap quotedChar ++ ['"']) := by
  rw [quote, onChars, String.toList_ofList, quoteChars]

theorem token_ofText (s : String) : Token s (ofText s) := by
  by_cases h : StandsBare s
  · have hs : ofText s = s := if_pos ((isBare_iff s).mpr h)
    refine ⟨unbroken_ofText s, ?_, fun _ => hs, absurd h⟩
    rw [hs]
    exact h.noNul
  · have hs : ofText s = quote s := if_neg ((isBare_iff s).not.mpr h)
    refine ⟨unbroken_ofText s, ?_, fun hbare => absurd hbare h, fun _ => ?_⟩
    · rw [hs, toList_quote, noNul_cons, noNul_append]
      exact ⟨by decide, List.forall_mem_flatMap.mpr fun a _ => noNul_quotedChar a, by decide⟩
    · exact ⟨_, by rw [hs, toList_quote], not_bare_flatMap_quotedChar _,
        decode?_flatMap_quotedChar _⟩

theorem Numeral.head?_ne_quote (h : Numeral cs) : cs.head? ≠ some '"' := by
  cases h with
  | negative h => simp
  | positive h =>
    intro hh
    obtain ⟨cs, rfl⟩ := List.head?_eq_some_iff.mp hh
    exact absurd h.head_isDigit (by decide)

theorem StandsBare.head?_ne_quote {s : String} (h : StandsBare s) : s.toList.head? ≠ some '"' := by
  rcases h with rfl | rfl | h
  · decide
  · decide
  · exact h.head?_ne_quote

/-- A token determines its text up to NUL characters. -/
theorem Token.injective {s t written : String} (hs : Token s written) (ht : Token t written) :
    withoutNul s.toList = withoutNul t.toList := by
  have hmixed : ∀ {u v}, Token u written → Token v written → StandsBare u → StandsBare v := by
    intro u v hu hv hbare
    by_contra hquoted
    obtain ⟨body, hbody, -, -⟩ := hv.quoted hquoted
    apply hbare.head?_ne_quote
    rw [← hu.bare hbare, hbody]
    rfl
  by_cases hbare : StandsBare s
  · rw [← hs.bare hbare, ← ht.bare (hmixed hs ht hbare)]
  · obtain ⟨body, hbody, -, hread⟩ := hs.quoted hbare
    obtain ⟨body', hbody', -, hread'⟩ := ht.quoted (mt (hmixed ht hs) hbare)
    have hsame : body = body' :=
      List.append_cancel_right (List.cons.inj (hbody.symm.trans hbody')).2
    exact Option.some.inj (hread.symm.trans (hsame ▸ hread'))

theorem withoutNul_of_noNul {s : String} (h : NoNul s.toList) :
    withoutNul s.toList = s.toList :=
  List.filter_eq_self.mpr fun c hc => decide_eq_true (h c hc)

/-- The literal of a text is one token. Texts without NUL characters have different literals. -/
theorem recoverable (nullWord s : String) :
    Token s (ofJson nullWord (some (.str s))) ∧
      ∀ t : String, NoNul s.toList → NoNul t.toList →
        ofJson nullWord (some (.str s)) = ofJson nullWord (some (.str t)) → s = t := by
  have htoken : ∀ u, Token u (ofJson nullWord (some (.str u))) := token_ofText
  refine ⟨htoken s, fun t hs ht he => String.toList_inj.mp ?_⟩
  rw [← withoutNul_of_noNul hs, ← withoutNul_of_noNul ht]
  exact (htoken s).injective (he ▸ htoken t)

end StoryFlow.Literal
