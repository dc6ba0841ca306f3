import StoryFlow.Json.Reader
import StoryFlow.Proofs.Number.Shortest

/-! # Printed numbers are read

Each of the four layouts of a decimal has the digits and the exponent that it was printed for, up
to zeros that are put between the digits and the point. What follows a number is left alone as long
as it cannot be a part of it.
-/

namespace StoryFlow

section Digits

variable {ds rest : List Char} {n : Nat}

theorem Fields.readDigits_eq (cs : List Char) : readDigits cs = Nat.ofDigitChars 10 cs 0 := by
  rw [readDigits, Nat.ofDigitChars_eq_foldl]
  rfl

theorem Fields.readDigits_toDigits (n : Nat) : readDigits (Nat.toDigits 10 n) = n := by
  rw [readDigits_eq, Nat.ofDigitChars_ten_toDigits]

theorem Fields.readDigits_append_zeros (cs : List Char) (n : Nat) :
    readDigits (cs ++ List.replicate n '0') = readDigits cs * 10 ^ n := by
  induction n with
  | zero => simp
  | succ n ih =>
    rw [List.replicate_succ', ← List.append_assoc, readDigits, List.foldl_append]
    change 10 * readDigits (cs ++ List.replicate n '0') + 0 = _
    rw [ih, Nat.pow_succ]
    ring

theorem Fields.readDigits_zeros_append (n : Nat) (cs : List Char) :
    readDigits (List.replicate n '0' ++ cs) = readDigits cs := by
  induction n with
  | zero => rfl
  | succ n ih => exact ih

theorem isDigit_toDigits (n : Nat) : ∀ c ∈ Nat.toDigits 10 n, c.isDigit :=
  fun _ hc => Nat.isDigit_of_mem_toDigits (by decide) (by decide) hc

theorem head_toDigits_ne_zero (hn : n ≠ 0) : (Nat.toDigits 10 n).head? ≠ some '0' := by
  induction n using Nat.strong_induction_on with
  | _ n ih =>
    rw [Nat.toDigits_eq_if (by decide)]
    split
    · simp [Nat.digitChar_eq_zero, hn]
    · rw [List.head?_append_of_ne_nil _ Nat.toDigits_ne_nil]
      exact ih (n / 10) (by omega) (by omega)

/-- What follows a number in a text does not go on with it. -/
def EndsNumber (rest : List Char) : Prop :=
  ∀ c ∈ rest.head?, c.isDigit = false ∧ c ≠ '.' ∧ c ≠ 'e' ∧ c ≠ 'E'

end Digits

namespace Json

variable {ds rest : List Char} {negative : Bool}

theorem digitRun_append (hd : ∀ c ∈ ds, c.isDigit)
    (hr : ∀ c ∈ rest.head?, c.isDigit = false) : digitRun (ds ++ rest) = (ds, rest) := by
  have hrest : rest.takeWhile Char.isDigit = [] ∧ rest.dropWhile Char.isDigit = rest := by
    cases rest with
    | nil => simp
    | cons c rest => simp [hr c rfl]
  rw [digitRun, List.takeWhile_append_of_pos hd, List.dropWhile_append_of_pos hd, hrest.1,
    hrest.2, List.append_nil]

theorem readWhole_append (hne : ds ≠ []) (hd : ∀ c ∈ ds, c.isDigit) (hz : ds.head? ≠ some '0')
    (hr : ∀ c ∈ rest.head?, c.isDigit = false) : readWhole (ds ++ rest) = some (ds, rest) := by
  rw [readWhole.eq_def]
  split
  · rename_i cs h
    cases ds with
    | nil => exact absurd rfl hne
    | cons c ds =>
      obtain ⟨rfl, -⟩ := List.cons.inj h
      exact absurd rfl hz
  · simp [digitRun_append hd hr, hne]

theorem readFraction_of_head (hr : ∀ c ∈ rest.head?, c ≠ '.') :
    readFraction rest = some ([], rest) := by
  rw [readFraction.eq_def]
  split
  · exact absurd rfl (hr '.' rfl)
  · rfl

theorem readFraction_append (hne : ds ≠ []) (hd : ∀ c ∈ ds, c.isDigit)
    (hr : ∀ c ∈ rest.head?, c.isDigit = false) :
    readFraction ('.' :: (ds ++ rest)) = some (ds, rest) := by
  simp [readFraction, digitRun_append hd hr, hne]

theorem readExponent_of_head (hr : ∀ c ∈ rest.head?, c ≠ 'e' ∧ c ≠ 'E') :
    readExponent rest = some (0, rest) := by
  cases rest with
  | nil => rfl
  | cons c rest => simp [readExponent, hr c rfl]

theorem readPower_toDigits (sign : Int) (n : Nat) (hr : ∀ c ∈ rest.head?, c.isDigit = false) :
    readPower sign (Nat.toDigits 10 n ++ rest) = some (sign * n, rest) := by
  simp [readPower, digitRun_append (isDigit_toDigits n) hr, Nat.toDigits_ne_nil,
    Fields.readDigits_toDigits]

theorem readExponent_power (power : Int) (hr : ∀ c ∈ rest.head?, c.isDigit = false) :
    readExponent ('e' :: (if power < 0 then '-' else '+') ::
      (Nat.toDigits 10 power.natAbs ++ rest)) = some (power, rest) := by
  by_cases hp : power < 0
  · simp [readExponent, hp, readPower_toDigits _ _ hr, abs_of_neg hp]
  · simp [readExponent, hp, readPower_toDigits _ _ hr, abs_of_nonneg (not_lt.mp hp)]

theorem readUnsigned_eq {cs whole fraction r₁ r₂ : List Char} {power : Int}
    (hw : readWhole cs = some (whole, r₁)) (hf : readFraction r₁ = some (fraction, r₂))
    (hp : readExponent r₂ = some (power, rest)) :
    readUnsigned negative cs = some (Number.ofDecimal negative
      (Fields.readDigits (whole ++ fraction)) (power - fraction.length), rest) := by
  simp [readUnsigned, hw, hf, hp]

section Layouts

open Number

/-- Digits that a decimal is printed with. -/
structure IsDigits (ds : List Char) : Prop where
  ne_nil : ds ≠ []
  isDigit : ∀ c ∈ ds, c.isDigit
  head_ne : ds.head? ≠ some '0'

variable (hds : IsDigits ds) (hr : EndsNumber rest)
include hds hr

theorem readUnsigned_whole (k : Nat) :
    readUnsigned negative (ds ++ List.replicate k '0' ++ rest) =
      some (ofDecimal negative (Fields.readDigits ds * 10 ^ k) 0, rest) := by
  have hw : readWhole (ds ++ List.replicate k '0' ++ rest) =
      some (ds ++ List.replicate k '0', rest) := by
    refine readWhole_append (by simp [hds.ne_nil]) ?_ ?_ fun c hc => (hr c hc).1
    · intro c hc
      rcases List.mem_append.mp hc with hc | hc
      · exact hds.isDigit c hc
      · rw [List.eq_of_mem_replicate hc]
        rfl
    · rw [List.head?_append_of_ne_nil _ hds.ne_nil]
      exact hds.head_ne
  have hf := readFraction_of_head fun c hc => (hr c hc).2.1
  have he := readExponent_of_head fun c hc => (hr c hc).2.2
  rw [readUnsigned_eq hw hf he, List.append_nil, Fields.readDigits_append_zeros]
  rfl

theorem readUnsigned_point {n : Nat} (hn : 0 < n) (hlt : n < ds.length) :
    readUnsigned negative (ds.take n ++ '.' :: ds.drop n ++ rest) =
      some (ofDecimal negative (Fields.readDigits ds) (n - ds.length), rest) := by
  have hw : readWhole (ds.take n ++ ('.' :: (ds.drop n ++ rest))) =
      some (ds.take n, '.' :: (ds.drop n ++ rest)) := by
    refine readWhole_append ?_ (fun c hc => hds.isDigit c (List.mem_of_mem_take hc)) ?_ ?_
    · simp [hds.ne_nil, hn.ne']
    · rw [List.head?_take, if_neg hn.ne']
      exact hds.head_ne
    · simp
  have hf : readFraction ('.' :: (ds.drop n ++ rest)) = some (ds.drop n, rest) := by
    refine readFraction_append ?_ (fun c hc => hds.isDigit c (List.mem_of_mem_drop hc))
      fun c hc => (hr c hc).1
    simpa using hlt
  have he := readExponent_of_head fun c hc => (hr c hc).2.2
  rw [List.append_assoc, List.cons_append, readUnsigned_eq hw hf he, List.take_append_drop,
    List.length_drop]
  congr 3
  omega

theorem readUnsigned_leading (k : Nat) :
    readUnsigned negative ('0' :: '.' :: (List.replicate k '0' ++ ds) ++ rest) =
      some (ofDecimal negative (Fields.readDigits ds) (-(k + ds.length : Nat)), rest) := by
  have hf : readFraction ('.' :: ((List.replicate k '0' ++ ds) ++ rest)) =
      some (List.replicate k '0' ++ ds, rest) := by
    refine readFraction_append (by simp [hds.ne_nil]) ?_ fun c hc => (hr c hc).1
    intro c hc
    rcases List.mem_append.mp hc with hc | hc
    · rw [List.eq_of_mem_replicate hc]
      rfl
    · exact hds.isDigit c hc
  have he := readExponent_of_head fun c hc => (hr c hc).2.2
  have hv : Fields.readDigits (['0'] ++ (List.replicate k '0' ++ ds)) = Fields.readDigits ds :=
    Fields.readDigits_zeros_append (k + 1) ds
  rw [List.cons_append, List.cons_append, readUnsigned_eq rfl hf he, hv, List.length_append,
    List.length_replicate, zero_sub]

omit hr in
/-- The digits of the scientific notation, with a tail that is read as its exponent. -/
theorem readUnsigned_mantissa {tail : List Char} {power : Int}
    (ht : ∀ c ∈ tail.head?, c.isDigit = false ∧ c ≠ '.')
    (he : readExponent tail = some (power, rest)) :
    readUnsigned negative
        (ds.take 1 ++ (if ds.length = 1 then [] else '.' :: ds.drop 1) ++ tail) =
      some (ofDecimal negative (Fields.readDigits ds) (power - (ds.length - 1 : Nat)), rest) := by
  have hne := hds.ne_nil
  have hhead := hds.head_ne
  have hdigit := hds.isDigit
  match ds with
  | [] => exact absurd rfl hne
  | [c] =>
    have hw := readWhole_append hne hdigit hhead fun c hc => (ht c hc).1
    have hf := readFraction_of_head fun c hc => (ht c hc).2
    simpa using readUnsigned_eq hw hf he
  | c :: d :: ds =>
    have hw : readWhole ([c] ++ ('.' :: (d :: ds ++ tail))) =
        some ([c], '.' :: (d :: ds ++ tail)) :=
      readWhole_append (List.cons_ne_nil c []) (by simpa using hdigit c) hhead (by simp)
    have hf := readFraction_append (List.cons_ne_nil d ds)
      (fun x hx => hdigit x (List.mem_cons_of_mem c hx)) fun c hc => (ht c hc).1
    simpa using readUnsigned_eq hw hf he

theorem readUnsigned_scientific (power : Int) :
    readUnsigned negative (ds.take 1 ++ (if ds.length = 1 then [] else '.' :: ds.drop 1) ++
        'e' :: (if power < 0 then '-' else '+') :: Nat.toDigits 10 power.natAbs ++ rest) =
      some (ofDecimal negative (Fields.readDigits ds) (power - (ds.length - 1 : Nat)), rest) := by
  have he := readExponent_power power fun c hc => (hr c hc).1
  rw [List.append_assoc]
  exact readUnsigned_mantissa hds (by simp) he

end Layouts

open Number in
/-- The text of a decimal reads as the number that it rounds to. -/
theorem readUnsigned_text (d : Decimal) (hd : d.digits ≠ 0) (hr : EndsNumber rest) :
    readUnsigned negative (d.text ++ rest) =
      some (ofDecimal negative d.digits d.exponent, rest) := by
  have hds : IsDigits (Nat.toDigits 10 d.digits) :=
    ⟨Nat.toDigits_ne_nil, isDigit_toDigits d.digits, head_toDigits_ne_zero hd⟩
  have hvalue := Fields.readDigits_toDigits d.digits
  have hpos := List.length_pos_of_ne_nil hds.ne_nil
  rw [Decimal.text]
  generalize Nat.toDigits 10 d.digits = ds at *
  simp only [if_neg hd]
  split
  · rename_i hwhole
    rw [readUnsigned_whole hds hr, hvalue, ofDecimal_mul_pow hd, zero_add,
      Int.toNat_of_nonneg hwhole.1]
  split
  · rename_i hwhole hpoint
    have hlt : (ds.length + d.exponent).toNat < ds.length := by omega
    rw [readUnsigned_point hds hr (by omega) hlt, hvalue]
    congr 3
    omega
  split
  · rename_i hleading
    rw [readUnsigned_leading hds hr, hvalue]
    congr 3
    omega
  · rw [readUnsigned_scientific hds hr, hvalue]
    congr 3
    omega

end Json

namespace Number

/-- A number whose zero has no sign. -/
def unsigned : Number → Number
  | finite negative m e h => finite (negative && m != 0) m e h
  | x => x

@[simp] theorem unsigned_unsigned (x : Number) : x.unsigned.unsigned = x.unsigned := by
  cases x <;> simp [unsigned]

@[simp] theorem unsigned_zero (negative : Bool) : (zero negative).unsigned = zero false := by
  simp [zero, unsigned]

@[simp] theorem isFinite_unsigned (x : Number) : x.unsigned.isFinite = x.isFinite := by
  cases x <;> rfl

@[simp] theorem chars_unsigned (x : Number) : x.unsigned.chars = x.chars := by
  cases x <;> simp [unsigned, chars]

@[simp] theorem text_unsigned (x : Number) : x.unsigned.text = x.text := by
  rw [text, text, chars_unsigned]

theorem Decimal.head_text (d : Decimal) : ∃ c cs, d.text = c :: cs ∧ c.isDigit := by
  obtain ⟨c, cs, hds⟩ := List.exists_cons_of_ne_nil (Nat.toDigits_ne_nil (n := d.digits) (b := 10))
  have hc : c.isDigit := isDigit_toDigits d.digits c (by simp [hds])
  rw [Decimal.text, hds]
  dsimp only
  split
  · exact ⟨'0', _, rfl, rfl⟩
  split
  · exact ⟨c, _, rfl, hc⟩
  split
  · rename_i hpoint
    obtain ⟨n, hn⟩ := Nat.exists_eq_add_one_of_ne_zero
      (n := (((c :: cs).length : Int) + d.exponent).toNat) (by omega)
    exact ⟨c, _, by rw [hn]; rfl, hc⟩
  split
  · exact ⟨'0', _, rfl, rfl⟩
  · exact ⟨c, _, rfl, hc⟩

theorem head_chars {x : Number} (hx : x.isFinite) :
    ∃ c cs, x.chars = c :: cs ∧ (c.isDigit ∨ c = '-') := by
  match x, hx with
  | finite negative m e h, _ =>
    obtain ⟨c, cs, htext, hc⟩ := (shortest m e h).head_text
    rw [chars]
    split
    · exact ⟨'-', _, rfl, .inr rfl⟩
    · exact ⟨c, cs, htext, .inl hc⟩

/-- A character that the text of a number can hold. -/
def IsPrinted (c : Char) : Prop :=
  c.isAlphanum ∨ c = '.' ∨ c = '+' ∨ c = '-'

theorem isPrinted_toDigits (n : Nat) : ∀ c ∈ Nat.toDigits 10 n, IsPrinted c := fun c hc =>
  Or.inl (by simp [Char.isAlphanum, isDigit_toDigits n c hc])

theorem Decimal.isPrinted_text (d : Decimal) : ∀ c ∈ d.text, IsPrinted c := by
  have hds := isPrinted_toDigits d.digits
  have hzeros (n : Nat) : ∀ c ∈ List.replicate n '0', IsPrinted c := fun c hc =>
    List.eq_of_mem_replicate hc ▸ Or.inl rfl
  have hpoint : IsPrinted '.' := Or.inr (Or.inl rfl)
  have htake (n : Nat) : ∀ c ∈ (Nat.toDigits 10 d.digits).take n, IsPrinted c :=
    fun c hc => hds c (List.mem_of_mem_take hc)
  have hdrop (n : Nat) : ∀ c ∈ (Nat.toDigits 10 d.digits).drop n, IsPrinted c :=
    fun c hc => hds c (List.mem_of_mem_drop hc)
  rw [Decimal.text]
  dsimp only
  split
  · exact List.forall_mem_singleton.mpr (Or.inl rfl)
  split
  · exact List.forall_mem_append.mpr ⟨hds, hzeros _⟩
  split
  · exact List.forall_mem_append.mpr ⟨htake _, List.forall_mem_cons.mpr ⟨hpoint, hdrop _⟩⟩
  split
  · exact List.forall_mem_cons.mpr ⟨Or.inl rfl, List.forall_mem_cons.mpr
      ⟨hpoint, List.forall_mem_append.mpr ⟨hzeros _, hds⟩⟩⟩
  · refine List.forall_mem_append.mpr ⟨List.forall_mem_append.mpr ⟨htake _, ?_⟩, ?_⟩
    · split
      · exact List.forall_mem_nil _
      · exact List.forall_mem_cons.mpr ⟨hpoint, hdrop _⟩
    · refine List.forall_mem_cons.mpr ⟨Or.inl rfl, List.forall_mem_cons.mpr
        ⟨?_, isPrinted_toDigits _⟩⟩
      split
      · exact Or.inr (Or.inr (Or.inr rfl))
      · exact Or.inr (Or.inr (Or.inl rfl))

theorem isPrinted_chars : ∀ x : Number, ∀ c ∈ x.chars, IsPrinted c
  | finite negative m e h => by
    have htext := (shortest m e h).isPrinted_text
    rw [chars]
    split
    · exact List.forall_mem_cons.mpr ⟨Or.inr (Or.inr (Or.inr rfl)), htext⟩
    · exact htext
  | infinite negative => by
    cases negative <;> simp [chars, IsPrinted]
  | nan => by simp [chars, IsPrinted]

theorem shortest_zero {e : Int} (h : Canonical 0 e) : (shortest 0 e h).digits = 0 := by
  simp [shortest, expansion, digitCount, firstCut, dropZeros]

theorem shortest_ne_zero {m : Nat} {e : Int} (h : Canonical m e) (hm : m ≠ 0) :
    (shortest m e h).digits ≠ 0 := by
  intro hzero
  have hreads : ofDecimal false _ _ = finite false m e h :=
    shortest_reads (Nat.pos_of_ne_zero hm) h
  rw [hzero, ofDecimal, if_pos (.inl rfl)] at hreads
  exact hm (by injection hreads with _ hm; exact hm.symm)

theorem eq_smallest_of_canonical {e : Int} (h : Canonical 0 e) : e = -1074 :=
  h.2.2.2.resolve_right (by decide)

end Number

open Number in
/-- The text of a finite number reads as that number, with zero losing its sign. -/
theorem Json.readNumber_chars {x : Number} {rest : List Char} (hx : x.isFinite)
    (hr : EndsNumber rest) : readNumber (x.chars ++ rest) = some (x.unsigned, rest) := by
  match x, hx with
  | finite negative m e h, _ =>
    obtain ⟨c, cs, htext, hc⟩ := (shortest m e h).head_text
    have hplain : readNumber ((shortest m e h).text ++ rest) =
        readUnsigned false ((shortest m e h).text ++ rest) := by
      have hne : c ≠ '-' := fun e => absurd (e ▸ hc) (by decide)
      rw [htext, List.cons_append]
      simp [readNumber, hne]
    by_cases hm : m = 0
    · subst hm
      obtain rfl := eq_smallest_of_canonical h
      have hzero : (shortest 0 (-1074) h).text = ['0'] := by
        rw [Decimal.text, if_pos (shortest_zero h)]
      have hw : readWhole ('0' :: rest) = some (['0'], rest) := rfl
      have hf := readFraction_of_head fun c hc => (hr c hc).2.1
      have he := readExponent_of_head fun c hc => (hr c hc).2.2
      have hchars : (finite negative 0 (-1074) h).chars = (shortest 0 (-1074) h).text := by
        simp [chars]
      rw [hchars, hplain, hzero, List.singleton_append, readUnsigned_eq hw hf he]
      simp [unsigned, ofDecimal, Fields.readDigits, zero]
    · have hread (sign : Bool) : readUnsigned sign ((shortest m e h).text ++ rest) =
          some (finite sign m e h, rest) := by
        rw [readUnsigned_text _ (shortest_ne_zero h hm) hr, shortest_reads (Nat.pos_of_ne_zero hm)]
      cases negative
      · simp [chars, hplain, hread, unsigned]
      · simp [chars, hm, hread, unsigned, readNumber]

end StoryFlow
