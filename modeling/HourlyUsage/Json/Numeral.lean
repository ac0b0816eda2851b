import HourlyUsage.Json.Lexeme

/-!
# Numbers of JSON

The digits of a number are gathered into 64 bits while they fit.  Whole digits
that do not fit raise the power of ten, digits of the fraction lower it as far
as they fit, and the result is that integer multiplied or divided by a power of
ten, each step rounded.  A number without fraction and exponent that fits its
integer type stays an integer.
-/

namespace HourlyUsage
namespace Json

open Text

inductive Number where
  | int (n : Int)
  | float (x : Binary64)
  deriving DecidableEq

/-- The digits of a written number: before the point, behind it, and of the exponent with its
sign. -/
structure Numeral where
  whole : Bytes
  fraction : Bytes
  exponent : Option (Bool × Bytes)
  deriving DecidableEq

namespace Numeral

/-- Reads the digits before the point.  `atEnd` is the cause of an input that ends too soon. -/
def readWhole (atEnd : Cause) : Reader Bytes
  | [] => Fault.here atEnd []
  | b :: rest =>
    if b = Ascii.zero then
      if rest.head?.any Ascii.isDigit then Fault.next .invalidNumber rest else .ok ([b], rest)
    else if Ascii.isDigit b then
      .ok (b :: rest.takeWhile Ascii.isDigit, rest.dropWhile Ascii.isDigit)
    else Fault.here .invalidNumber rest

/-- Reads a point and the digits behind it, if there is a point. -/
def readFraction (atEnd : Cause) : Reader Bytes
  | Ascii.point :: rest =>
    let ds := rest.takeWhile Ascii.isDigit
    if ds.isEmpty then Fault.next (if rest.isEmpty then atEnd else .invalidNumber) rest
    else .ok (ds, rest.dropWhile Ascii.isDigit)
  | bs => .ok ([], bs)

/-- Splits the sign off an exponent: is it negative? -/
def splitSign : Bytes → Bool × Bytes
  | Ascii.plus :: rest => (false, rest)
  | Ascii.minus :: rest => (true, rest)
  | bs => (false, bs)

def readExponentDigits (atEnd : Cause) : Reader (Bool × Bytes) := fun bs ↦
  match splitSign bs with
  | (_, []) => Fault.here atEnd []
  | (negative, d :: rest) =>
    if Ascii.isDigit d then
      .ok ((negative, d :: rest.takeWhile Ascii.isDigit), rest.dropWhile Ascii.isDigit)
    else Fault.here .invalidNumber rest

def readExponent (atEnd : Cause) : Reader (Option (Bool × Bytes))
  | [] => .ok (none, [])
  | b :: rest =>
    if b = Ascii.lowerE ∨ b = Ascii.upperE then do
      let (e, rest) ← readExponentDigits atEnd rest
      return (some e, rest)
    else .ok (none, b :: rest)

def read (atEnd : Cause) : Reader Numeral := fun bs ↦ do
  let (whole, bs) ← readWhole atEnd bs
  let (fraction, bs) ← readFraction atEnd bs
  let (exponent, bs) ← readExponent atEnd bs
  return (⟨whole, fraction, exponent⟩, bs)

/-! ## Values -/

/-- Appends digits to a number while 64 bits hold it; also counts the digits that are left. -/
def gather (n : Nat) : Bytes → Nat × Nat
  | [] => (n, 0)
  | d :: ds =>
    let n' := 10 * n + Ascii.digitValue d
    if n' < wordLimit then gather n' ds else (n, ds.length + 1)

/-- The bound on the digits of an exponent, taken as a number. -/
def exponentLimit : Nat := 2147483648

/-- Appends digits to an exponent.  Where 31 bits do not hold it, the count of the digits behind
the one at fault is the error. -/
def gatherExponent (n : Nat) : Bytes → Except Nat Nat
  | [] => .ok n
  | d :: ds =>
    let n' := 10 * n + Ascii.digitValue d
    if n' < exponentLimit then gatherExponent n' ds else .error ds.length

/-- The value times a power of ten, in steps of at most 308 powers.  Only a result that is finite
counts. -/
def scaleByTen? (x : Binary64) (e : Int) : Option Binary64 :=
  if e.natAbs ≤ 308 then
    if 0 ≤ e then
      let y := x.mul (Binary64.powerOfTen e.natAbs)
      if y.isInfinite then none else some y
    else some (x.div (Binary64.powerOfTen e.natAbs))
  else if x.isZero then some x
  else if 0 ≤ e then none
  else scaleByTen? (x.div (Binary64.powerOfTen 308)) (e + 308)
termination_by (-e).toNat

def signed (negative : Bool) (x : Binary64) : Binary64 := if negative then x.neg else x

/-- The floating-point value.  `left` counts the bytes behind the number. -/
def float (n : Numeral) (negative : Bool) (left : Nat) : Except Fault Binary64 :=
  let (whole, dropped) := gather 0 n.whole
  let (significand, unread) := gather whole n.fraction
  let power : Int := (dropped : Int) - (n.fraction.length - unread : Nat)
  let scaled (e : Int) : Except Fault Binary64 :=
    match scaleByTen? (Binary64.ofNat significand) e with
    | some x => .ok (signed negative x)
    | none => .error ⟨.numberOutOfRange, left⟩
  match n.exponent with
  | none => scaled power
  | some (below, ds) =>
    match gatherExponent 0 ds with
    | .ok e => scaled (if below then power - e else power + e)
    | .error behind =>
      if significand = 0 ∨ below then .ok (signed negative (Binary64.ofNat 0))
      else .error ⟨.numberOutOfRange, left + behind⟩

/-- The number written, an integer where it is one of at most 64 bits.  A negative zero is no
integer. -/
def number (n : Numeral) (negative : Bool) (left : Nat) : Except Fault Number :=
  let (whole, dropped) := gather 0 n.whole
  if n.fraction.isEmpty ∧ n.exponent.isNone ∧ dropped = 0 ∧
      (negative → 0 < whole ∧ 2 * whole ≤ wordLimit) then
    .ok (.int (if negative then -whole else whole))
  else (n.float negative left).map .float

end Numeral

namespace Number

/-- Reads a number, of which the sign has been read where there is one. -/
def read (negative : Bool) : Reader Number := fun bs ↦ do
  let (n, rest) ← Numeral.read .eofInValue bs
  let x ← n.number negative rest.length
  return (x, rest)

def toFloat : Number → Binary64
  | .int n => Numeral.signed (decide (n < 0)) (Binary64.ofNat n.natAbs)
  | .float x => x

end Number

end Json
end HourlyUsage
