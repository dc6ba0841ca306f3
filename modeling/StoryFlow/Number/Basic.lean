/-! # Binary64 numbers

Numbers of a document are only read, tested and printed. A finite one is a significand below
2^53 at a binary scale, in the one form in which the significand is as large as the scale allows.
Rounding takes a quotient of naturals to the nearest such number, a tie to the even significand.
-/

namespace StoryFlow

/-- The one form of a finite number: full significands, except at the smallest scale. -/
def Canonical (m : Nat) (e : Int) : Prop :=
  m < Nat.pow 2 53 ∧ -1074 ≤ e ∧ e ≤ 971 ∧ (e = -1074 ∨ Nat.pow 2 52 ≤ m)

instance (m : Nat) (e : Int) : Decidable (Canonical m e) :=
  inferInstanceAs (Decidable (_ ∧ _ ∧ _ ∧ _))

/-- A finite number is `m * 2 ^ e` with a sign; zero has two signs. -/
inductive Number where
  | finite (negative : Bool) (m : Nat) (e : Int) (canonical : Canonical m e)
  | infinite (negative : Bool)
  | nan
deriving DecidableEq

namespace Number

/-- `num / den` in units of `2 ^ e`, to the nearest natural, a tie to the even one. -/
def inUnits (num den : Nat) (e : Int) : Nat :=
  let n := num * Nat.pow 2 (-e).toNat
  let d := den * Nat.pow 2 e.toNat
  let q := n / d
  let r := n % d
  if d < 2 * r ∨ (2 * r = d ∧ q % 2 = 1) then q + 1 else q

/-- The scale at which `num / den` has 53 binary digits, or the smallest scale. -/
def scaleOf (num den : Nat) : Int :=
  let e : Int := (num.log2 : Int) - den.log2 - 53
  let full := Nat.pow 2 53 * (den * Nat.pow 2 e.toNat) ≤ num * Nat.pow 2 (-e).toNat
  max (-1074) (if full then e + 1 else e)

def zero (negative : Bool) : Number :=
  finite negative 0 (-1074) (by decide)

/-- The number nearest to `num / den`, with a sign; infinite when it would pass the greatest one. -/
def ofQuotient (negative : Bool) (num den : Nat) : Number :=
  let e := scaleOf num den
  let m := inUnits num den e
  let (m, e) := if m = Nat.pow 2 53 then (Nat.pow 2 52, e + 1) else (m, e)
  if h : Canonical m e then finite negative m e h else infinite negative

/-- The count of decimal digits. -/
def digitCount (n : Nat) : Nat :=
  (Nat.toDigits 10 n).length

/-- The number nearest to `digits * 10 ^ exponent`. Magnitudes far outside the range are told by
their count of digits, without the power being computed. -/
def ofDecimal (negative : Bool) (digits : Nat) (exponent : Int) : Number :=
  let magnitude := digitCount digits + exponent
  if digits = 0 ∨ magnitude < -400 then zero negative
  else if 400 < magnitude then infinite negative
  else ofQuotient negative (digits * Nat.pow 10 exponent.toNat) (Nat.pow 10 (-exponent).toNat)

def ofNat (n : Nat) : Number :=
  ofDecimal false n 0

def isFinite : Number → Bool
  | finite .. => true
  | _ => false

/-- Neither zero nor undefined. -/
def isTruthy : Number → Bool
  | finite _ m _ _ => m != 0
  | infinite _ => true
  | nan => false

end Number

end StoryFlow
