import Mathlib.Algebra.Order.Field.Power
import Mathlib.Data.Int.Log
import Mathlib.Data.Rat.Floor
import Mathlib.Tactic.FieldSimp
import StoryFlow.Number.Shortest

/-! # Rounding depends on the value alone

A quotient is rounded to the same number however it is written as a fraction, and a decimal however
its power of ten is split between digits and exponent. The scale of a quotient is its binary
logarithm, which the counts of binary digits miss by at most one.
-/

namespace StoryFlow.Number

variable {num den k d : Nat} {e : Int} {negative : Bool}

theorem two_zpow_eq (e : Int) : (2 : ℚ) ^ e = 2 ^ e.toNat / 2 ^ (-e).toNat := by
  rw [div_eq_mul_inv, ← zpow_natCast, ← zpow_natCast, ← zpow_neg, ← zpow_add₀ two_ne_zero]
  congr 1
  omega

theorem log_eq {x : ℚ} {n : Int} (h : (2 : ℚ) ^ n ≤ x) (h' : x < (2 : ℚ) ^ (n + 1)) :
    Int.log 2 x = n := by
  have hx : 0 < x := lt_of_lt_of_le (zpow_pos two_pos n) h
  have hl := (Int.zpow_le_iff_le_log one_lt_two hx).mp (by exact_mod_cast h)
  have hu := (Int.lt_zpow_iff_log_lt one_lt_two hx).mp (by exact_mod_cast h')
  omega

/-- The test for a full significand compares the quotient with a power of two. -/
theorem full_iff (hd : 0 < den) (e : Int) :
    Nat.pow 2 53 * (den * Nat.pow 2 e.toNat) ≤ num * Nat.pow 2 (-e).toNat ↔
      (2 : ℚ) ^ (e + 53) ≤ (num : ℚ) / den := by
  have hden : (0 : ℚ) < den := by exact_mod_cast hd
  have hp : (0 : ℚ) < 2 ^ (-e).toNat := by positivity
  have hs : (2 : ℚ) ^ (e + 53) * den * 2 ^ (-e).toNat = 2 ^ 53 * (den * 2 ^ e.toNat) := by
    rw [zpow_add₀ two_ne_zero, two_zpow_eq e]
    field_simp
  rw [le_div_iff₀ hden, ← mul_le_mul_iff_left₀ hp, hs, ← Nat.cast_le (α := ℚ)]
  push_cast [Nat.pow_eq]
  rfl

/-- The counts of binary digits give the logarithm of a quotient, or one more. -/
theorem div_bounds (hn : 0 < num) (hd : 0 < den) :
    (2 : ℚ) ^ ((num.log2 : Int) - den.log2 - 1) ≤ num / den ∧
      (num : ℚ) / den < (2 : ℚ) ^ ((num.log2 : Int) - den.log2 + 1) := by
  have hden : (0 : ℚ) < den := by exact_mod_cast hd
  have hn₁ : (2 : ℚ) ^ num.log2 ≤ num := by exact_mod_cast Nat.log2_self_le hn.ne'
  have hn₂ : (num : ℚ) < 2 ^ (num.log2 + 1) := by exact_mod_cast Nat.lt_log2_self
  have hd₁ : (2 : ℚ) ^ den.log2 ≤ den := by exact_mod_cast Nat.log2_self_le hd.ne'
  have hd₂ : (den : ℚ) < 2 ^ (den.log2 + 1) := by exact_mod_cast Nat.lt_log2_self
  constructor
  · rw [le_div_iff₀ hden]
    calc (2 : ℚ) ^ ((num.log2 : Int) - den.log2 - 1) * den
        ≤ (2 : ℚ) ^ ((num.log2 : Int) - den.log2 - 1) * 2 ^ (den.log2 + 1) := by gcongr
      _ = 2 ^ num.log2 := by
          rw [← zpow_natCast, ← zpow_natCast, ← zpow_add₀ two_ne_zero]
          congr 1
          push_cast
          ring
      _ ≤ num := hn₁
  · rw [div_lt_iff₀ hden]
    calc (num : ℚ) < 2 ^ (num.log2 + 1) := hn₂
      _ = (2 : ℚ) ^ ((num.log2 : Int) - den.log2 + 1) * 2 ^ den.log2 := by
          rw [← zpow_natCast, ← zpow_natCast, ← zpow_add₀ two_ne_zero]
          congr 1
          push_cast
          ring
      _ ≤ (2 : ℚ) ^ ((num.log2 : Int) - den.log2 + 1) * den := by gcongr

theorem scaleOf_eq (hn : 0 < num) (hd : 0 < den) :
    scaleOf num den = max (-1074) (Int.log 2 ((num : ℚ) / den) - 52) := by
  obtain ⟨hlow, hhigh⟩ := div_bounds hn hd
  have he : ((num.log2 : Int) - den.log2 - 53) + 53 = num.log2 - den.log2 := by ring
  have he' : ((num.log2 : Int) - den.log2 - 1) + 1 = num.log2 - den.log2 := by ring
  unfold scaleOf
  simp only [full_iff hd, he]
  congr 1
  split
  · rename_i hfull
    rw [log_eq hfull hhigh]
    ring
  · rename_i hfull
    rw [log_eq hlow (by rw [he']; exact not_le.mp hfull)]
    ring

theorem inUnits_mul (hk : 0 < k) (num den : Nat) (e : Int) :
    inUnits (k * num) (k * den) e = inUnits num den e := by
  simp only [inUnits, Nat.mul_assoc, Nat.mul_div_mul_left _ _ hk, Nat.mul_mod_mul_left,
    Nat.mul_left_comm 2 k, Nat.mul_lt_mul_left hk, Nat.mul_right_inj hk.ne']

/-- A fraction may be expanded. -/
theorem ofQuotient_mul (hk : 0 < k) (hn : 0 < num) (hd : 0 < den) :
    ofQuotient negative (k * num) (k * den) = ofQuotient negative num den := by
  have hs : scaleOf (k * num) (k * den) = scaleOf num den := by
    rw [scaleOf_eq (Nat.mul_pos hk hn) (Nat.mul_pos hk hd), scaleOf_eq hn hd]
    push_cast
    rw [mul_div_mul_left _ _ (by exact_mod_cast hk.ne')]
  simp only [ofQuotient, hs, inUnits_mul hk]

theorem digitCount_mul_ten (hd : d ≠ 0) : digitCount (10 * d) = digitCount d + 1 := by
  rw [digitCount, Nat.toDigits_of_base_le (by decide) (by omega), List.length_append,
    Nat.mul_div_cancel_left d (by decide)]
  rfl

/-- A trailing zero of the digits may go into the exponent. -/
theorem ofDecimal_mul_ten (hd : d ≠ 0) (e : Int) :
    ofDecimal negative (10 * d) e = ofDecimal negative d (e + 1) := by
  have hq : ofQuotient negative (10 * d * Nat.pow 10 e.toNat) (Nat.pow 10 (-e).toNat) =
      ofQuotient negative (d * Nat.pow 10 (e + 1).toNat) (Nat.pow 10 (-(e + 1)).toNat) := by
    simp only [Nat.pow_eq]
    rcases lt_or_ge e 0 with he | he
    · have h₁ : (-e).toNat = (-(e + 1)).toNat + 1 := by omega
      have h₂ : e.toNat = 0 := by omega
      have h₃ : (e + 1).toNat = 0 := by omega
      rw [h₁, h₂, h₃, Nat.pow_succ', Nat.mul_assoc]
      exact ofQuotient_mul (by decide) (by positivity) (by positivity)
    · have h₁ : (e + 1).toNat = e.toNat + 1 := by omega
      have h₂ : (-e).toNat = 0 := by omega
      have h₃ : (-(e + 1)).toNat = 0 := by omega
      rw [h₁, h₂, h₃, Nat.pow_succ', Nat.mul_assoc, Nat.mul_left_comm]
  have hm : ((digitCount (10 * d) : Int) + e) = digitCount d + (e + 1) := by
    rw [digitCount_mul_ten hd]
    push_cast
    ring
  have hz : 10 * d = 0 ↔ d = 0 := by omega
  simp only [ofDecimal, hm, hz, hq]

theorem ofDecimal_mul_pow (hd : d ≠ 0) (n : Nat) (e : Int) :
    ofDecimal negative (d * 10 ^ n) e = ofDecimal negative d (e + n) := by
  induction n generalizing e with
  | zero => simp
  | succ n ih =>
    have hp : d * 10 ^ n ≠ 0 := by positivity
    rw [Nat.pow_succ', Nat.mul_left_comm, ofDecimal_mul_ten hp, ih]
    congr 1
    push_cast
    ring

end StoryFlow.Number
