import Mathlib.Data.List.TakeWhile
import StoryFlow.Proofs.Number.Text

/-! # Numerals and quoted texts

What a numeral and a quoted text are is said here without the reader. The reader takes exactly
these from the head of a text, and gives what they stand for.
-/

namespace StoryFlow.Json

/-- Decimal digits, at least one. -/
def Digits (ds : List Char) : Prop :=
  ds ≠ [] ∧ ∀ c ∈ ds, c.isDigit

inductive Whole : List Char → Prop where

  | zero : Whole ['0']

  | digits {ds : List Char} : Digits ds → ds.head? ≠ some '0' → Whole ds

/-- The part of a numeral behind the whole digits, and its own digits. -/
inductive Fraction : List Char → List Char → Prop where

  | absent : Fraction [] []

  | point {ds : List Char} : Digits ds → Fraction ('.' :: ds) ds

def signs : List (List Char × Int) :=
  [([], 1), (['+'], 1), (['-'], -1)]

/-- The last part of a numeral, and the power of ten that it gives. -/
inductive Exponent : List Char → Int → Prop where

  | absent : Exponent [] 0

  | power {e : Char} {sign ds : List Char} {factor : Int} : e ∈ ['e', 'E'] →
      (sign, factor) ∈ signs → Digits ds →
      Exponent (e :: (sign ++ ds)) (factor * Fields.readDigits ds)

/-- The texts of a number. -/
inductive Numeral : List Char → Number → Prop where

  | mk {minus whole fraction ds exponent : List Char} {negative : Bool} {power : Int} :
      (minus, negative) ∈ [([], false), (['-'], true)] → Whole whole → Fraction fraction ds →
      Exponent exponent power →
      Numeral (minus ++ (whole ++ (fraction ++ exponent)))
        (Number.ofDecimal negative (Fields.readDigits (whole ++ ds)) (power - ds.length))

/-- Four hexadecimal digits and the unit that they give. -/
inductive HexUnit : List Char → Nat → Prop where

  | mk {a b c d : Char} {w x y z : Nat} : hexValue? a = some w → hexValue? b = some x →
      hexValue? c = some y → hexValue? d = some z →
      HexUnit [a, b, c, d] (((w * 16 + x) * 16 + y) * 16 + z)

abbrev IsLeading (u : Nat) : Prop := 0xD800 ≤ u ∧ u ≤ 0xDBFF

abbrev IsTrailing (u : Nat) : Prop := 0xDC00 ≤ u ∧ u ≤ 0xDFFF

/-- The characters that stand behind a backslash for others. -/
def escapes : List (Char × Char) :=
  [('"', '"'), ('\\', '\\'), ('/', '/'), ('b', '\x08'), ('f', '\x0c'), ('n', '\n'), ('r', '\r'),
    ('t', '\t')]

/-- What may stand between two quotes, and the characters that it stands for. Two surrogates in a
row are one character; one without the other is the replacement character. -/
inductive Quoted : List Char → List Char → Prop where

  | nil : Quoted [] []

  | plain {c : Char} {t cs : List Char} : c ≠ '"' → c ≠ '\\' → ¬ c.toNat < 32 → Quoted t cs →
      Quoted (c :: t) (c :: cs)

  | escape {e c : Char} {t cs : List Char} : (e, c) ∈ escapes → Quoted t cs →
      Quoted ('\\' :: e :: t) (c :: cs)

  | code {h t cs : List Char} {u : Nat} : HexUnit h u → ¬ IsLeading u → ¬ IsTrailing u →
      Quoted t cs → Quoted ('\\' :: 'u' :: (h ++ t)) (Char.ofNat u :: cs)

  | pair {h h' t cs : List Char} {u v : Nat} : HexUnit h u → IsLeading u → HexUnit h' v →
      IsTrailing v → Quoted t cs →
      Quoted ('\\' :: 'u' :: (h ++ '\\' :: 'u' :: (h' ++ t)))
        (Char.ofNat (0x10000 + (u - 0xD800) * 0x400 + (v - 0xDC00)) :: cs)

  | leading {h t cs : List Char} {u : Nat} : HexUnit h u → IsLeading u →
      (∀ h' v t', HexUnit h' v → IsTrailing v → t ≠ '\\' :: 'u' :: (h' ++ t')) → Quoted t cs →
      Quoted ('\\' :: 'u' :: (h ++ t)) (Char.ofNat 0xFFFD :: cs)

  | trailing {h t cs : List Char} {u : Nat} : HexUnit h u → IsTrailing u → Quoted t cs →
      Quoted ('\\' :: 'u' :: (h ++ t)) (Char.ofNat 0xFFFD :: cs)

section Numerals

variable {cs ds rest whole fraction exponent t : List Char} {factor power : Int} {x : Number}
  {negative : Bool}

theorem digitRun_join (cs : List Char) : (digitRun cs).1 ++ (digitRun cs).2 = cs :=
  List.takeWhile_append_dropWhile

theorem digits_digitRun (h : (digitRun cs).1 ≠ []) : Digits (digitRun cs).1 :=
  ⟨h, fun _ hc => List.mem_takeWhile_imp hc⟩

theorem whole_of_readWhole (h : readWhole cs = some (whole, rest)) :
    cs = whole ++ rest ∧ Whole whole := by
  rw [readWhole.eq_def] at h
  split at h
  · obtain ⟨rfl, rfl⟩ := Prod.mk.inj (Option.some.inj h)
    exact ⟨rfl, .zero⟩
  · rename_i hzero
    dsimp only at h
    rw [Option.ite_none_left_eq_some] at h
    obtain ⟨hne, h⟩ := h
    obtain ⟨rfl, rfl⟩ := Prod.mk.inj (Option.some.inj h)
    refine ⟨(digitRun_join _).symm, .digits (digits_digitRun hne) ?_⟩
    cases cs with
    | nil => exact absurd rfl hne
    | cons c cs =>
      have hc : c ≠ '0' := fun he => hzero cs (by rw [he])
      rw [digitRun, List.takeWhile_cons]
      split
      · simpa using hc
      · simp

theorem fraction_of_readFraction (h : readFraction cs = some (ds, rest)) :
    ∃ fraction, cs = fraction ++ rest ∧ Fraction fraction ds := by
  rw [readFraction.eq_def] at h
  split at h
  · rename_i cs
    dsimp only at h
    rw [Option.ite_none_left_eq_some] at h
    obtain ⟨hne, h⟩ := h
    obtain ⟨rfl, rfl⟩ := Prod.mk.inj (Option.some.inj h)
    refine ⟨'.' :: (digitRun cs).1, ?_, .point (digits_digitRun hne)⟩
    rw [List.cons_append, digitRun_join]
  · obtain ⟨rfl, rfl⟩ := Prod.mk.inj (Option.some.inj h)
    exact ⟨[], rfl, .absent⟩

theorem digits_of_readPower (h : readPower factor cs = some (power, rest)) :
    ∃ ds, cs = ds ++ rest ∧ Digits ds ∧ power = factor * Fields.readDigits ds := by
  simp only [readPower] at h
  rw [Option.ite_none_left_eq_some] at h
  obtain ⟨hne, h⟩ := h
  obtain ⟨rfl, rfl⟩ := Prod.mk.inj (Option.some.inj h)
  exact ⟨_, (digitRun_join _).symm, digits_digitRun hne, rfl⟩

theorem exponent_of_readExponent (h : readExponent cs = some (power, rest)) :
    ∃ exponent, cs = exponent ++ rest ∧ Exponent exponent power := by
  rw [readExponent.eq_def] at h
  split at h
  · rename_i e cs
    split at h
    · rename_i he
      have he : e ∈ ['e', 'E'] := by simpa using he
      have hsign : ∀ (sign : List Char) {factor : Int} {after : List Char},
          (sign, factor) ∈ signs → cs = sign ++ after →
          readPower factor after = some (power, rest) →
          ∃ exponent, e :: cs = exponent ++ rest ∧ Exponent exponent power := by
        rintro sign factor after hs rfl h
        obtain ⟨ds, rfl, hds, rfl⟩ := digits_of_readPower h
        exact ⟨e :: (sign ++ ds), by simp, .power he hs hds⟩
      split at h
      · exact hsign ['-'] (by simp [signs]) rfl h
      · exact hsign ['+'] (by simp [signs]) rfl h
      · exact hsign [] (by simp [signs]) rfl h
    · obtain ⟨rfl, rfl⟩ := Prod.mk.inj (Option.some.inj h)
      exact ⟨[], rfl, .absent⟩
  · obtain ⟨rfl, rfl⟩ := Prod.mk.inj (Option.some.inj h)
    exact ⟨[], rfl, .absent⟩

theorem numeral_of_readUnsigned (minus : List Char)
    (hm : (minus, negative) ∈ [([], false), (['-'], true)])
    (h : readUnsigned negative cs = some (x, rest)) :
    ∃ t, minus ++ cs = t ++ rest ∧ Numeral t x := by
  simp only [readUnsigned, Option.bind_eq_bind, Option.bind_eq_some_iff] at h
  obtain ⟨⟨whole, r⟩, hw, ⟨ds, r'⟩, hf, ⟨power, r''⟩, he, h⟩ := h
  obtain ⟨rfl, rfl⟩ := Prod.mk.inj (Option.some.inj h)
  obtain ⟨rfl, hwhole⟩ := whole_of_readWhole hw
  obtain ⟨fraction, rfl, hfraction⟩ := fraction_of_readFraction hf
  obtain ⟨exponent, rfl, hexponent⟩ := exponent_of_readExponent he
  exact ⟨_, by simp, .mk hm hwhole hfraction hexponent⟩

theorem numeral_of_readNumber (h : readNumber cs = some (x, rest)) :
    ∃ t, cs = t ++ rest ∧ Numeral t x := by
  rw [readNumber.eq_def] at h
  split at h
  · exact numeral_of_readUnsigned ['-'] (by simp) h
  · exact numeral_of_readUnsigned [] (by simp) h

theorem Whole.head (h : Whole whole) : ∃ c cs, whole = c :: cs ∧ c.isDigit := by
  cases h with
  | zero => exact ⟨'0', [], rfl, rfl⟩
  | digits hds _ =>
    obtain ⟨c, cs, rfl⟩ := List.exists_cons_of_ne_nil hds.1
    exact ⟨c, cs, rfl, hds.2 c List.mem_cons_self⟩

theorem Whole.readWhole (h : Whole whole) (hr : ∀ c ∈ rest.head?, c.isDigit = false) :
    readWhole (whole ++ rest) = some (whole, rest) := by
  cases h with
  | zero => rfl
  | digits hds hz => exact readWhole_append hds.1 hds.2 hz hr

theorem Fraction.readFraction (h : Fraction fraction ds)
    (hr : ∀ c ∈ rest.head?, c.isDigit = false ∧ c ≠ '.') :
    readFraction (fraction ++ rest) = some (ds, rest) := by
  cases h with
  | absent => exact readFraction_of_head fun c hc => (hr c hc).2
  | point hds => exact readFraction_append hds.1 hds.2 fun c hc => (hr c hc).1

theorem Exponent.readExponent (h : Exponent exponent power) (hr : EndsNumber rest) :
    readExponent (exponent ++ rest) = some (power, rest) := by
  cases h with
  | absent => exact readExponent_of_head fun c hc => (hr c hc).2.2
  | @power e sign ds factor he hs hds =>
    have hpower : readPower factor (ds ++ rest) =
        some (factor * Fields.readDigits ds, rest) := by
      simp [readPower, digitRun_append hds.2 fun c hc => (hr c hc).1, hds.1]
    have he : e = 'e' ∨ e = 'E' := by simpa using he
    obtain ⟨d, ds, rfl⟩ := List.exists_cons_of_ne_nil hds.1
    have hd : d ≠ '-' ∧ d ≠ '+' := by
      have hd := hds.2 d List.mem_cons_self
      constructor <;> rintro rfl <;> exact absurd hd (by decide)
    simp only [signs, List.mem_cons, List.not_mem_nil, or_false, Prod.mk.injEq] at hs
    rw [List.cons_append, List.append_assoc]
    simp only [Json.readExponent, if_pos he]
    rcases hs with ⟨rfl, rfl⟩ | ⟨rfl, rfl⟩ | ⟨rfl, rfl⟩
    · simpa [hd] using hpower
    · exact hpower
    · exact hpower

theorem Exponent.head (h : Exponent exponent power) (hr : EndsNumber rest) :
    ∀ c ∈ (exponent ++ rest).head?, c.isDigit = false ∧ c ≠ '.' := by
  cases h with
  | absent => exact fun c hc => ⟨(hr c hc).1, (hr c hc).2.1⟩
  | @power e _ _ _ he _ _ =>
    intro c hc
    obtain rfl : e = c := Option.some.inj hc
    have he : e = 'e' ∨ e = 'E' := by simpa using he
    rcases he with rfl | rfl <;> decide

theorem Fraction.head (h : Fraction fraction ds) (hr : ∀ c ∈ rest.head?, c.isDigit = false) :
    ∀ c ∈ (fraction ++ rest).head?, c.isDigit = false := by
  cases h with
  | absent => exact hr
  | point _ =>
    intro c hc
    obtain rfl := Option.some.inj hc
    decide

/-- A numeral is read whole when nothing follows that could be a part of it. -/
theorem Numeral.readNumber (h : Numeral t x) (hr : EndsNumber rest) :
    readNumber (t ++ rest) = some (x, rest) := by
  cases h with
  | @mk minus whole fraction ds exponent negative power hm hw hf he =>
    have hhead := he.head hr
    have hread : readUnsigned negative (whole ++ (fraction ++ (exponent ++ rest))) =
        some (Number.ofDecimal negative (Fields.readDigits (whole ++ ds)) (power - ds.length),
          rest) :=
      readUnsigned_eq (hw.readWhole (hf.head fun c hc => (hhead c hc).1)) (hf.readFraction hhead)
        (he.readExponent hr)
    simp only [List.append_assoc]
    simp only [List.mem_cons, List.not_mem_nil, or_false, Prod.mk.injEq] at hm
    rcases hm with ⟨rfl, rfl⟩ | ⟨rfl, rfl⟩
    · obtain ⟨c, cs, hcs, hc⟩ := hw.head
      rw [List.nil_append, Json.readNumber.eq_def]
      split
      · rename_i heq
        rw [hcs] at heq
        obtain ⟨rfl, -⟩ := List.cons.inj heq
        exact absurd hc (by decide)
      · exact hread
    · exact hread

end Numerals

section Texts

variable {cs rest h t q : List Char} {c : Char} {u v n : Nat}

theorem hexUnit_of_hexUnit? (hu : hexUnit? cs = some (u, rest)) :
    ∃ h, cs = h ++ rest ∧ HexUnit h u := by
  unfold hexUnit? at hu
  split at hu
  · rename_i a b c d cs
    simp only [Option.bind_eq_bind, Option.bind_eq_some_iff] at hu
    obtain ⟨w, hw, x, hx, y, hy, z, hz, hu⟩ := hu
    obtain ⟨rfl, rfl⟩ := Prod.mk.inj (Option.some.inj hu)
    exact ⟨[a, b, c, d], rfl, .mk hw hx hy hz⟩
  · exact nomatch hu

theorem HexUnit.hexUnit? (hu : HexUnit h u) : hexUnit? (h ++ rest) = some (u, rest) := by
  cases hu with
  | mk hw hx hy hz => simp [Json.hexUnit?, hw, hx, hy, hz]

theorem trailing?_eq_some_iff : trailing? cs = some (v, rest) ↔
    ∃ h, cs = '\\' :: 'u' :: (h ++ rest) ∧ HexUnit h v ∧ IsTrailing v := by
  constructor
  · intro hv
    unfold trailing? at hv
    split at hv
    · obtain ⟨hv, ht⟩ := Option.filter_eq_some_iff.mp hv
      obtain ⟨h, rfl, hh⟩ := hexUnit_of_hexUnit? hv
      exact ⟨h, rfl, hh, by simpa [IsTrailing] using ht⟩
    · exact nomatch hv
  · rintro ⟨h, rfl, hh, ht⟩
    have ht : 0xDC00 ≤ v ∧ v ≤ 0xDFFF := ht
    simp [trailing?, hh.hexUnit?, ht]

/-- What an escape by code stands for, when the text goes on with a quoted one. -/
theorem quoted_of_codeEscape? (he : codeEscape? cs = some (c, q ++ '"' :: rest))
    (hq : Quoted q t) : ∃ q', '\\' :: 'u' :: cs = q' ++ '"' :: rest ∧ Quoted q' (c :: t) := by
  obtain ⟨⟨u, r⟩, hu, hchar⟩ := Option.map_eq_some_iff.mp he
  obtain ⟨h, rfl, hh⟩ := hexUnit_of_hexUnit? hu
  clear he
  dsimp only at hchar
  split at hchar
  · rename_i hl
    split at hchar
    · rename_i v r' hv
      obtain ⟨rfl, rfl⟩ := Prod.mk.inj hchar
      obtain ⟨h', rfl, hh', ht⟩ := trailing?_eq_some_iff.mp hv
      exact ⟨'\\' :: 'u' :: (h ++ '\\' :: 'u' :: (h' ++ q)), by simp, .pair hh hl hh' ht hq⟩
    · rename_i hnone
      obtain ⟨rfl, rfl⟩ := Prod.mk.inj hchar
      refine ⟨'\\' :: 'u' :: (h ++ q), by simp, .leading hh hl ?_ hq⟩
      rintro h' v t' hh' ht rfl
      have hsome : trailing? ('\\' :: 'u' :: (h' ++ t') ++ '"' :: rest) =
          some (v, t' ++ '"' :: rest) :=
        trailing?_eq_some_iff.mpr ⟨h', by simp, hh', ht⟩
      exact nomatch hnone.symm.trans hsome
  · rename_i hl
    split at hchar
    · rename_i ht
      obtain ⟨rfl, rfl⟩ := Prod.mk.inj hchar
      exact ⟨'\\' :: 'u' :: (h ++ q), by simp, .trailing hh ht hq⟩
    · rename_i ht
      obtain ⟨rfl, rfl⟩ := Prod.mk.inj hchar
      exact ⟨'\\' :: 'u' :: (h ++ q), by simp, .code hh hl ht hq⟩

theorem quoted_of_escape? (he : escape? cs = some (c, q ++ '"' :: rest)) (hq : Quoted q t) :
    ∃ q', '\\' :: cs = q' ++ '"' :: rest ∧ Quoted q' (c :: t) := by
  unfold escape? at he
  split at he
  case h_9 => exact quoted_of_codeEscape? he hq
  case h_10 => exact nomatch he
  all_goals
    obtain ⟨rfl, rfl⟩ := Prod.mk.inj (Option.some.inj he)
    exact ⟨'\\' :: _ :: q, rfl, .escape (by simp [escapes]) hq⟩

theorem quoted_of_readQuoted (hr : readQuoted n cs = some (t, rest)) :
    ∃ q, cs = q ++ '"' :: rest ∧ Quoted q t := by
  induction n generalizing cs t with
  | zero => exact nomatch hr
  | succ n ih =>
    cases cs with
    | nil => exact nomatch hr
    | cons d cs =>
      by_cases hquote : d = '"'
      · subst hquote
        obtain ⟨rfl, rfl⟩ := Prod.mk.inj (Option.some.inj hr)
        exact ⟨[], rfl, .nil⟩
      by_cases hslash : d = '\\'
      · subst hslash
        simp only [readQuoted, Option.bind_eq_bind, Option.bind_eq_some_iff] at hr
        obtain ⟨⟨c, r⟩, he, ⟨t', r'⟩, ht, hc⟩ := hr
        obtain ⟨rfl, rfl⟩ := Prod.mk.inj (Option.some.inj hc)
        obtain ⟨q, rfl, hq⟩ := ih ht
        exact quoted_of_escape? he hq
      · simp only [readQuoted, Option.bind_eq_bind] at hr
        rw [Option.ite_none_left_eq_some] at hr
        obtain ⟨hcontrol, hr⟩ := hr
        obtain ⟨⟨t', r⟩, ht, hc⟩ := Option.bind_eq_some_iff.mp hr
        obtain ⟨rfl, rfl⟩ := Prod.mk.inj (Option.some.inj hc)
        obtain ⟨q, rfl, hq⟩ := ih ht
        exact ⟨d :: q, rfl, .plain hquote hslash hcontrol hq⟩

section Reading

theorem HexUnit.quote_not_mem (hu : HexUnit h u) : '"' ∉ h := by
  cases hu with
  | mk ha hb hc hd =>
    have hquote : ∀ {c : Char} {w : Nat}, hexValue? c = some w → '"' ≠ c := by
      rintro c w hw rfl
      exact nomatch hw
    simp [hquote ha, hquote hb, hquote hc, hquote hd]

/-- The closing quote is no part of a trailing surrogate. -/
theorem trailing?_eq_none
    (hne : ∀ h' v t', HexUnit h' v → IsTrailing v → t ≠ '\\' :: 'u' :: (h' ++ t')) :
    trailing? (t ++ '"' :: rest) = none := by
  rw [Option.eq_none_iff_forall_ne_some]
  rintro ⟨v, r⟩ hsome
  obtain ⟨h', heq, hh', ht⟩ := trailing?_eq_some_iff.mp hsome
  have heq : t ++ '"' :: rest = ('\\' :: 'u' :: h') ++ r := heq
  have hquote : '"' ∉ '\\' :: 'u' :: h' := by simp [hh'.quote_not_mem]
  rcases List.append_eq_append_iff.mp heq with ⟨more, hmore, hr⟩ | ⟨more, rfl, -⟩
  · cases more with
    | nil => exact hne h' v [] hh' ht (by simpa using hmore.symm)
    | cons c more =>
      obtain ⟨rfl, -⟩ := List.cons.inj hr
      exact hquote (hmore ▸ List.mem_append_right t List.mem_cons_self)
  · exact hne h' v more hh' ht rfl

theorem escape?_escapes {e : Char} (he : (e, c) ∈ escapes) : escape? (e :: cs) = some (c, cs) := by
  simp only [escapes, List.mem_cons, List.not_mem_nil, or_false, Prod.mk.injEq] at he
  rcases he with ⟨rfl, rfl⟩ | ⟨rfl, rfl⟩ | ⟨rfl, rfl⟩ | ⟨rfl, rfl⟩ | ⟨rfl, rfl⟩ | ⟨rfl, rfl⟩ |
    ⟨rfl, rfl⟩ | ⟨rfl, rfl⟩ <;> rfl

theorem escape?_code (hu : HexUnit h u) (hl : ¬ IsLeading u) (ht : ¬ IsTrailing u) :
    escape? ('u' :: (h ++ rest)) = some (Char.ofNat u, rest) := by
  rw [escape?, codeEscape?, hu.hexUnit?, Option.map_some]
  dsimp only
  rw [if_neg hl, if_neg ht]

theorem escape?_trailing (hu : HexUnit h u) (ht : IsTrailing u) :
    escape? ('u' :: (h ++ rest)) = some (Char.ofNat 0xFFFD, rest) := by
  have hl : ¬ IsLeading u := fun hl => absurd (ht.1.trans hl.2) (by decide)
  rw [escape?, codeEscape?, hu.hexUnit?, Option.map_some]
  dsimp only
  rw [if_neg hl, if_pos ht]

theorem escape?_pair {h' : List Char} (hu : HexUnit h u) (hl : IsLeading u) (hv : HexUnit h' v)
    (ht : IsTrailing v) : escape? ('u' :: (h ++ '\\' :: 'u' :: (h' ++ rest))) =
      some (Char.ofNat (0x10000 + (u - 0xD800) * 0x400 + (v - 0xDC00)), rest) := by
  rw [escape?, codeEscape?, hu.hexUnit?, Option.map_some]
  dsimp only
  rw [if_pos hl, trailing?_eq_some_iff.mpr ⟨h', rfl, hv, ht⟩]

theorem escape?_leading (hu : HexUnit h u) (hl : IsLeading u) (hn : trailing? rest = none) :
    escape? ('u' :: (h ++ rest)) = some (Char.ofNat 0xFFFD, rest) := by
  rw [escape?, codeEscape?, hu.hexUnit?, Option.map_some]
  dsimp only
  rw [if_pos hl, hn]

/-- An escape is read, and then what stands behind it. -/
theorem readQuoted_escape (e : List Char) {t : List Char}
    (he : escape? (e ++ (q ++ '"' :: rest)) = some (c, q ++ '"' :: rest))
    (hr : ∀ {m}, q.length < m → readQuoted m (q ++ '"' :: rest) = some (t, rest))
    (hn : ('\\' :: (e ++ q)).length < n) :
    readQuoted n ('\\' :: (e ++ q) ++ '"' :: rest) = some (c :: t, rest) := by
  obtain ⟨n, rfl⟩ := Nat.exists_eq_add_one_of_ne_zero (Nat.ne_zero_of_lt hn)
  rw [List.length_cons, List.length_append] at hn
  have hq := hr (m := n) (by omega)
  simp [readQuoted, he, hq]

end Reading

/-- A quoted text is read up to its closing quote. -/
theorem Quoted.readQuoted (hq : Quoted q t) (hn : q.length < n) :
    readQuoted n (q ++ '"' :: rest) = some (t, rest) := by
  induction hq generalizing n with
  | nil =>
    obtain ⟨n, rfl⟩ := Nat.exists_eq_add_one_of_ne_zero (Nat.ne_zero_of_lt hn)
    rfl
  | @plain c t cs hquote hslash hcontrol _ ih =>
    obtain ⟨n, rfl⟩ := Nat.exists_eq_add_one_of_ne_zero (Nat.ne_zero_of_lt hn)
    rw [List.length_cons, Nat.add_lt_add_iff_right] at hn
    simp only [List.cons_append, Json.readQuoted, if_neg hcontrol, ih hn]
    rfl
  | @escape e c t cs he _ ih => exact readQuoted_escape [e] (escape?_escapes he) ih hn
  | @code h t cs u hu hl ht _ ih =>
    exact readQuoted_escape ('u' :: h) (escape?_code hu hl ht) ih hn
  | @pair h h' t cs u v hu hl hv ht _ ih =>
    have hread := readQuoted_escape (n := n) ('u' :: (h ++ '\\' :: 'u' :: h'))
      (by simpa using escape?_pair hu hl hv ht) ih (by simpa using hn)
    simpa using hread
  | @leading h t cs u hu hl hne _ ih =>
    exact readQuoted_escape ('u' :: h) (escape?_leading hu hl (trailing?_eq_none hne)) ih hn
  | @trailing h t cs u hu ht _ ih =>
    exact readQuoted_escape ('u' :: h) (escape?_trailing hu ht) ih hn

end Texts

end StoryFlow.Json
