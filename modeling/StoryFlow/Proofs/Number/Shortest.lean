import Mathlib.Tactic.NormNum.Pow
import StoryFlow.Proofs.Number.Rounding

/-! # The shortest decimal reads back

The exact expansion of a finite number is rounded to the number itself, so the search for the
shortest decimal finds one that reads back, and dropping trailing zeros does not change that.
-/

namespace StoryFlow.Number

variable {m : Nat} {e : Int} {negative : Bool}

theorem log_mul_zpow (hm : 0 < m) (e : Int) :
    Int.log 2 ((m : ℚ) * 2 ^ e) = m.log2 + e := by
  have hp : (0 : ℚ) < 2 ^ e := by positivity
  refine log_eq ?_ ?_
  · rw [zpow_add₀ two_ne_zero, zpow_natCast]
    gcongr
    exact_mod_cast Nat.log2_self_le hm.ne'
  · rw [add_right_comm, zpow_add₀ two_ne_zero, ← Nat.cast_succ, zpow_natCast]
    gcongr
    exact_mod_cast Nat.lt_log2_self

/-- A canonical significand is at its scale already. -/
theorem scaleOf_canonical (hm : 0 < m) (h : Canonical m e) :
    scaleOf (m * 2 ^ e.toNat) (2 ^ (-e).toNat) = e := by
  obtain ⟨hlt, hlow, -, hfull⟩ := h
  have hv : ((m * 2 ^ e.toNat : ℕ) : ℚ) / (2 ^ (-e).toNat : ℕ) = m * 2 ^ e := by
    rw [two_zpow_eq]
    push_cast
    ring
  rw [scaleOf_eq (by positivity) (by positivity), hv, log_mul_zpow hm]
  have hlog : m.log2 < 53 := (Nat.log2_lt hm.ne').mpr hlt
  rcases hfull with rfl | hfull
  · omega
  · have : 52 ≤ m.log2 := (Nat.le_log2 hm.ne').mpr hfull
    omega

theorem inUnits_self (m : Nat) (e : Int) :
    inUnits (m * 2 ^ e.toNat) (2 ^ (-e).toNat) e = m := by
  have hd : 0 < 2 ^ (-e).toNat * 2 ^ e.toNat := by positivity
  have hn : m * 2 ^ e.toNat * 2 ^ (-e).toNat = m * (2 ^ (-e).toNat * 2 ^ e.toNat) := by ring
  simp only [inUnits, Nat.pow_eq, hn, Nat.mul_div_cancel _ hd, Nat.mul_mod_left]
  rw [if_neg (by omega)]

theorem ofQuotient_canonical (hm : 0 < m) (h : Canonical m e) :
    ofQuotient negative (m * 2 ^ e.toNat) (2 ^ (-e).toNat) = finite negative m e h := by
  have hne : ¬ m = Nat.pow 2 53 := h.1.ne
  simp only [ofQuotient, scaleOf_canonical hm h, inUnits_self, if_neg hne, dif_pos h]

section Expansion

theorem digitCount_le_iff {n k : Nat} (hk : 0 < k) : digitCount n ≤ k ↔ n < 10 ^ k :=
  Nat.length_toDigits_le_iff (by decide) hk

theorem two_pow_le_ten_pow (n : Nat) : 2 ^ (13 * n) ≤ 10 ^ (4 * n) := by
  rw [Nat.pow_mul, Nat.pow_mul]
  exact Nat.pow_le_pow_left (by decide) n

theorem two_pow_le_five_pow (n : Nat) : 2 ^ (2 * n) ≤ 5 ^ n := by
  rw [Nat.pow_mul]
  exact Nat.pow_le_pow_left (by decide) n

/-- A power of five has nearly as many decimal digits as the power of ten. -/
theorem ten_pow_le_five_pow {k n : Nat} (hn : n ≤ k) (hk : k - n ≤ 2 * n) :
    10 ^ (k - n) ≤ 5 ^ k :=
  calc 10 ^ (k - n) = 2 ^ (k - n) * 5 ^ (k - n) := Nat.mul_pow 2 5 (k - n)
    _ ≤ 2 ^ (2 * n) * 5 ^ (k - n) := Nat.mul_le_mul_right _ (Nat.pow_le_pow_right two_pos hk)
    _ ≤ 5 ^ n * 5 ^ (k - n) := Nat.mul_le_mul_right _ (two_pow_le_five_pow n)
    _ = 5 ^ k := by rw [← Nat.pow_add, Nat.add_sub_cancel' hn]

/-- The digits of the expansion of a finite number do not put it far outside the range. -/
theorem magnitude_expansion (hm : 0 < m) (h : Canonical m e) :
    -400 ≤ (digitCount (expansion m e).digits : Int) + (expansion m e).exponent ∧
      (digitCount (expansion m e).digits : Int) + (expansion m e).exponent ≤ 400 := by
  obtain ⟨hlt, hlow, hhigh, -⟩ := h
  simp only [expansion, Nat.pow_eq] at hlt ⊢
  have hk : (-e).toNat ≤ 1074 := by omega
  generalize (-e).toNat = k at hk
  have hsmall : 5 ^ k ≤ m * 2 ^ e.toNat * 5 ^ k := Nat.le_mul_of_pos_left _ (by positivity)
  have hmono : ∀ a b, a ≤ b → 2 ^ a ≤ 2 ^ b := fun a b => Nat.pow_le_pow_right two_pos
  have hpow := hmono e.toNat 971 (by omega)
  have hbig : m * 2 ^ e.toNat * 5 ^ k < 10 ^ (400 + k) :=
    calc m * 2 ^ e.toNat * 5 ^ k < 2 ^ 53 * 2 ^ 971 * 5 ^ k :=
          Nat.mul_lt_mul_of_pos_right (Nat.mul_lt_mul_of_lt_of_le hlt hpow (by positivity))
            (by positivity)
      _ ≤ 2 ^ (13 * 79) * 5 ^ k := by
          rw [← pow_add]
          exact Nat.mul_le_mul_right _ (hmono (53 + 971) (13 * 79) (by decide))
      _ ≤ 10 ^ (4 * 79) * 10 ^ k :=
          Nat.mul_le_mul (two_pow_le_ten_pow 79) (Nat.pow_le_pow_left (by decide) k)
      _ ≤ 10 ^ (400 + k) := by
          rw [← Nat.pow_add]
          exact Nat.pow_le_pow_right (by decide) (by omega)
  have hhigh := (digitCount_le_iff (by omega)).mpr hbig
  have hlow : k ≤ digitCount (m * 2 ^ e.toNat * 5 ^ k) + 400 := by
    by_contra hc
    have hpos : 0 < digitCount (m * 2 ^ e.toNat * 5 ^ k) := Nat.length_toDigits_pos
    have hcount := (digitCount_le_iff (n := m * 2 ^ e.toNat * 5 ^ k) (k := k - 401)
      (by omega)).mp (by omega)
    have hten := (ten_pow_le_five_pow (n := 401) (by omega) (by omega)).trans hsmall
    omega
  omega

/-- The exact expansion is rounded to what it was made from. -/
theorem ofDecimal_expansion (hm : 0 < m) (h : Canonical m e) :
    ofDecimal negative (expansion m e).digits (expansion m e).exponent = finite negative m e h := by
  obtain ⟨hlow, hhigh⟩ := magnitude_expansion hm h
  have hz : (expansion m e).digits ≠ 0 := by
    simp only [expansion, Nat.pow_eq]
    positivity
  have hq : ofQuotient negative
      ((expansion m e).digits * Nat.pow 10 (expansion m e).exponent.toNat)
      (Nat.pow 10 (-(expansion m e).exponent).toNat) = finite negative m e h := by
    have hpos : (-((-e).toNat : Int)).toNat = 0 := by omega
    simp only [expansion, Nat.pow_eq, hpos, Int.neg_neg, Int.toNat_natCast, Nat.pow_zero,
      Nat.mul_one]
    rw [Nat.mul_comm _ (5 ^ _), show (10 : Nat) = 5 * 2 from rfl, Nat.mul_pow,
      ofQuotient_mul (by positivity) (by positivity) (by positivity), ofQuotient_canonical hm h]
  simp only [ofDecimal, hz, false_or, if_neg (Int.not_lt.mpr hlow), if_neg (Int.not_lt.mpr hhigh),
    hq]

end Expansion

theorem ofQuotient_sign {num den : Nat} {h : Canonical m e}
    (hq : ofQuotient false num den = finite false m e h) :
    ofQuotient negative num den = finite negative m e h := by
  simp only [ofQuotient] at hq ⊢
  generalize (if inUnits num den (scaleOf num den) = Nat.pow 2 53 then
    (Nat.pow 2 52, scaleOf num den + 1)
    else (inUnits num den (scaleOf num den), scaleOf num den)) = r at hq ⊢
  by_cases hr : Canonical r.1 r.2
  · simp_all
  · simp [hr] at hq

/-- The sign goes through rounding as it is. -/
theorem ofDecimal_sign {digits : Nat} {exponent : Int} {h : Canonical m e}
    (hd : ofDecimal false digits exponent = finite false m e h) :
    ofDecimal negative digits exponent = finite negative m e h := by
  simp only [ofDecimal] at hd ⊢
  split at hd
  · rename_i hz
    rw [if_pos hz]
    simp_all [zero]
  · rename_i hz
    rw [if_neg hz]
    split at hd
    · simp at hd
    · rename_i hm
      rw [if_neg hm]
      exact ofQuotient_sign hd

section Search

variable {x : Number} {whole d : Decimal} {cut : Nat}

theorem readsAs_iff : d.readsAs x ↔ ofDecimal false d.digits d.exponent = x := by
  simp [Decimal.readsAs]

theorem cutAt_reads (h : cutAt x whole cut = some d) : d.readsAs x := by
  unfold cutAt at h
  simp only at h
  split at h
  · split at h <;> simp_all
  all_goals simp_all

theorem firstCut_reads (h : whole.readsAs x) (cut : Nat) : (firstCut x whole cut).readsAs x := by
  induction cut with
  | zero => exact h
  | succ cut ih =>
    rw [firstCut]
    cases hc : cutAt x whole (cut + 1) with
    | none => exact ih
    | some d => exact cutAt_reads hc

theorem dropZeros_reads (n : Nat) (h : d.readsAs x) : (dropZeros n d).readsAs x := by
  induction n generalizing d with
  | zero => exact h
  | succ n ih =>
    rw [dropZeros]
    split
    · rename_i hd
      have hten : 10 * (d.digits / 10) = d.digits := by omega
      have hne : d.digits / 10 ≠ 0 := by omega
      refine ih (readsAs_iff.mpr ?_)
      rw [← ofDecimal_mul_ten hne, hten]
      exact readsAs_iff.mp h
    · exact h

/-- What is printed of a finite number reads back as it. -/
theorem shortest_reads (hm : 0 < m) (h : Canonical m e) :
    ofDecimal negative (shortest m e h).digits (shortest m e h).exponent =
      finite negative m e h := by
  refine ofDecimal_sign (readsAs_iff.mp (dropZeros_reads _ (firstCut_reads ?_ _)))
  exact readsAs_iff.mpr (ofDecimal_expansion hm h)

end Search

end StoryFlow.Number
