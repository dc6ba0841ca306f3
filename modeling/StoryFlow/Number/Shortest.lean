import StoryFlow.Number.Basic

/-! # The shortest decimal of a number

The printed digits are the fewest that read back as the number, and of those the nearest to it.
They are found on the exact decimal expansion, cut after one, two, … digits and rounded down and
up: when the whole expansion is taken it reads back as it is, so the search always ends.
-/

namespace StoryFlow.Number

/-- `digits * 10 ^ exponent`. -/
structure Decimal where
  digits : Nat
  exponent : Int
deriving DecidableEq

/-- The exact decimal expansion of `m * 2 ^ e`. -/
def expansion (m : Nat) (e : Int) : Decimal :=
  ⟨m * Nat.pow 2 e.toNat * Nat.pow 5 (-e).toNat, -((-e).toNat : Int)⟩

/-- Does the decimal, without a sign, read back as the number? -/
def Decimal.readsAs (d : Decimal) (x : Number) : Bool :=
  ofDecimal false d.digits d.exponent == x

/-- The cut of an expansion after which `cut` digits are missing: rounded down or up, whichever
reads back as `x`, and the nearer one if both do, the even one at the same distance. -/
def cutAt (x : Number) (whole : Decimal) (cut : Nat) : Option Decimal :=
  let unit := Nat.pow 10 cut
  let down := whole.digits / unit
  let rest := whole.digits % unit
  let lower : Decimal := ⟨down, whole.exponent + cut⟩
  let upper : Decimal := ⟨down + 1, whole.exponent + cut⟩
  match lower.readsAs x, upper.readsAs x with
  | true, true =>
    if 2 * rest < unit ∨ (2 * rest = unit ∧ down % 2 = 0) then some lower else some upper
  | true, false => some lower
  | false, true => some upper
  | false, false => none

/-- The first cut that reads back, from the longest to the shortest. -/
def firstCut (x : Number) (whole : Decimal) : Nat → Decimal
  | 0 => whole
  | cut + 1 => (cutAt x whole (cut + 1)).getD (firstCut x whole cut)

/-- Drops trailing zeros, as many as there are tries. -/
def dropZeros : Nat → Decimal → Decimal
  | 0, d => d
  | n + 1, d =>
    if d.digits ≠ 0 ∧ d.digits % 10 = 0 then dropZeros n ⟨d.digits / 10, d.exponent + 1⟩ else d

/-- The digits that are printed for `m * 2 ^ e`. -/
def shortest (m : Nat) (e : Int) (h : Canonical m e) : Decimal :=
  let whole := expansion m e
  let size := digitCount whole.digits
  dropZeros size (firstCut (finite false m e h) whole (size - 1))

/-- The digits in positional notation while the point stands at most 21 places to the right of
the first digit and at most six zeros follow it, in scientific notation otherwise. -/
def Decimal.text (d : Decimal) : List Char :=
  let ds := Nat.toDigits 10 d.digits
  let n := ds.length
  let point : Int := n + d.exponent
  if d.digits = 0 then ['0']
  else if 0 ≤ d.exponent ∧ point ≤ 21 then ds ++ List.replicate d.exponent.toNat '0'
  else if 0 < point ∧ point ≤ 21 then ds.take point.toNat ++ '.' :: ds.drop point.toNat
  else if -6 < point ∧ point ≤ 0 then '0' :: '.' :: (List.replicate (-point).toNat '0' ++ ds)
  else
    let power := point - 1
    let fraction := if n = 1 then [] else '.' :: ds.drop 1
    let sign := if power < 0 then '-' else '+'
    ds.take 1 ++ fraction ++ 'e' :: sign :: Nat.toDigits 10 power.natAbs

/-- The printed text of a number; the sign of zero is not written. -/
def chars : Number → List Char
  | finite negative m e h =>
    let body := (shortest m e h).text
    if negative ∧ m ≠ 0 then '-' :: body else body
  | infinite negative => (if negative then "-Infinity" else "Infinity").toList
  | nan => "NaN".toList

def text (x : Number) : String :=
  String.ofList x.chars

end StoryFlow.Number
