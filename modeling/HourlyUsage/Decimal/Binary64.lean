/-!
# Binary floating point in 64 bits

A value is its bit pattern.  A finite one is a natural number times a power of
two, and arithmetic computes the exact quotient of two naturals and rounds it
once, to nearest with ties to even.  A magnitude that rounds beyond the finite
ones becomes infinite.
-/

namespace HourlyUsage

structure Binary64 where
  bits : UInt64
  deriving DecidableEq

namespace Binary64

def signBit : Nat := 9223372036854775808

/-- The value of the bit that leads every normal significand and is not stored. -/
def hiddenBit : Nat := 4503599627370496

def isNegative (x : Binary64) : Bool := decide (signBit ≤ x.bits.toNat)

def magnitude (x : Binary64) : Nat := x.bits.toNat % signBit

/-- The magnitude of the infinities; those of the finite values are smaller. -/
def infinity : Nat := 2047 * hiddenBit

def isFinite (x : Binary64) : Bool := decide (x.magnitude < infinity)

def isInfinite (x : Binary64) : Bool := decide (x.magnitude = infinity)

def isZero (x : Binary64) : Bool := decide (x.magnitude = 0)

def ofMagnitude (negative : Bool) (m : Nat) : Binary64 :=
  ⟨UInt64.ofNat (m + if negative then signBit else 0)⟩

def neg (x : Binary64) : Binary64 := ofMagnitude (!x.isNegative) x.magnitude

/-- Comparison as numbers: the two zeros are equal. -/
def sameNumber (x y : Binary64) : Bool :=
  (x.isZero && y.isZero) || (decide (x.bits = y.bits) && decide (x.magnitude ≤ infinity))

/-! ## Decoding -/

/-- The integral factor of a finite magnitude. -/
def significand (m : Nat) : Nat := if m < hiddenBit then m else hiddenBit + m % hiddenBit

/-- The power of two that scales the integral factor of a finite magnitude. -/
def scale (m : Nat) : Int := if m < hiddenBit then -1074 else (m / hiddenBit : Nat) - 1075

/-! ## Rounding -/

/-- The natural number nearest to a quotient, a tie going to the even neighbour. -/
def roundDiv (n d : Nat) : Nat :=
  if 2 * (n % d) < d then n / d
  else if d < 2 * (n % d) then n / d + 1
  else n / d + n / d % 2

/-- The greatest `k` with `2 ^ k` at most the quotient of two positive naturals. -/
def floorLog2 (n d : Nat) : Int :=
  let k : Int := (Nat.log2 n : Int) - Nat.log2 d
  if d <<< k.toNat ≤ n <<< (-k).toNat then k else k - 1

def roundQuotient (n d : Nat) : Nat :=
  if n = 0 then 0
  else
    let q := max (floorLog2 n d - 52) (-1074)
    min infinity ((q + 1074).toNat * hiddenBit + roundDiv (n <<< (-q).toNat) (d <<< q.toNat))

def ofNat (n : Nat) : Binary64 := ofMagnitude false (roundQuotient n 1)

/-- The nearest value to `10 ^ k`. -/
def powerOfTen (k : Nat) : Binary64 := ofNat (Nat.pow 10 k)

def mul (x y : Binary64) : Binary64 :=
  let q := scale x.magnitude + scale y.magnitude
  let m := significand x.magnitude * significand y.magnitude
  ofMagnitude (x.isNegative != y.isNegative) (roundQuotient (m <<< q.toNat) (1 <<< (-q).toNat))

/-- The quotient of two finite values, the second not zero. -/
def div (x y : Binary64) : Binary64 :=
  let q := scale x.magnitude - scale y.magnitude
  ofMagnitude (x.isNegative != y.isNegative)
    (roundQuotient (significand x.magnitude <<< q.toNat) (significand y.magnitude <<< (-q).toNat))

end Binary64
end HourlyUsage
