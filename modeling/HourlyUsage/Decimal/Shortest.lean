import HourlyUsage.Decimal.Binary64
import HourlyUsage.Text.Digits

/-!
# Shortest decimals

The decimal written for a finite value is the shortest that reads back as it:
of the decimals that round to the value, one with the fewest digits, and of
those the nearest.  The reals that round to a value form an interval, whose
ends belong to it exactly when the integral factor is even.
-/

namespace HourlyUsage

/-- The number `digits * 10 ^ exponent`. -/
structure Decimal where
  digits : Nat
  exponent : Int
  deriving DecidableEq

namespace Decimal

/-- Compares `a * 10 ^ i` with `n * 2 ^ j`. -/
def compareScaled (a : Nat) (i : Int) (n : Nat) (j : Int) : Ordering :=
  compare ((a * Nat.pow 10 i.toNat) <<< (-j).toNat) ((n * Nat.pow 10 (-i).toNat) <<< j.toNat)

/-- Does a decimal round to the value of this finite magnitude?  Below a power of two the values
are half as far apart. -/
def roundsTo (d : Decimal) (magnitude : Nat) : Bool :=
  let m := Binary64.significand magnitude
  let q := Binary64.scale magnitude - 2
  let low :=
    if magnitude % Binary64.hiddenBit = 0 ∧ 2 * Binary64.hiddenBit ≤ magnitude then 4 * m - 1
    else 4 * m - 2
  let above := compareScaled d.digits d.exponent low q
  let below := compareScaled d.digits d.exponent (4 * m + 2) q
  if m % 2 = 0 then above.isGE && below.isLE else above.isGT && below.isLT

def digitCount (n : Nat) : Nat := (Text.decimal n).length

/-- The greatest `k` with `10 ^ k` at most the quotient of two positive naturals. -/
def floorLog10 (n d : Nat) : Int :=
  if d ≤ n then digitCount (n / d) - 1
  else
    let j := digitCount (d / n) - 1
    if d ≤ n * Nat.pow 10 j then -j else -(j + 1 : Nat)

/-- The better of the two neighbours of a value on the grid of this power of ten, if one rounds to
the value.  A tie goes to the even one. -/
def onGrid? (magnitude : Nat) (exponent : Int) : Option Decimal :=
  let m := Binary64.significand magnitude
  let q := Binary64.scale magnitude
  let n := (m * Nat.pow 10 (-exponent).toNat) <<< q.toNat
  let d := Nat.pow 10 exponent.toNat <<< (-q).toNat
  let lower : Decimal := ⟨n / d, exponent⟩
  let upper : Decimal := ⟨n / d + 1, exponent⟩
  match lower.roundsTo magnitude, upper.roundsTo magnitude with
  | true, true => some ⟨Binary64.roundDiv n d, exponent⟩
  | true, false => some lower
  | false, true => some upper
  | false, false => none

/-- Tries the grids of `digits` digits and more, up to `left` digits more. -/
def search (magnitude : Nat) (top : Int) : (left digits : Nat) → Option Decimal
  | 0, _ => none
  | left + 1, digits =>
    onGrid? magnitude (top + 1 - digits) <|> search magnitude top left (digits + 1)

/-- Moves zeros at the end of the digits, at most `left` of them, into the exponent. -/
def strip : (left : Nat) → Decimal → Decimal
  | 0, d => d
  | left + 1, d =>
    if d.digits % 10 = 0 then strip left ⟨d.digits / 10, d.exponent + 1⟩ else d

/-- The shortest decimal for a finite magnitude.  Seventeen digits always suffice; the value itself
stands in for a search that finds none. -/
def shortest (magnitude : Nat) : Decimal :=
  if magnitude = 0 then ⟨0, 0⟩
  else
    let m := Binary64.significand magnitude
    let q := Binary64.scale magnitude
    let top := floorLog10 (m <<< q.toNat) (1 <<< (-q).toNat)
    match search magnitude top 17 1 with
    | some d => strip 17 d
    | none => ⟨(m * Nat.pow 5 (-q).toNat) <<< q.toNat, -(-q).toNat⟩

end Decimal
end HourlyUsage
