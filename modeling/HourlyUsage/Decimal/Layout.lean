import HourlyUsage.Decimal.Shortest

/-!
# The text of a floating-point number

A number is written out in full while its leading digit stands between the
fifth place after the point and the sixteenth before it, always with a digit
after the point, and otherwise with one digit before the point and a signed
exponent.
-/

namespace HourlyUsage
namespace Decimal

open Text

/-- How numbers are laid out: the least and greatest power of ten of the leading digit that are
written out in full. -/
structure Layout where
  least : Int
  greatest : Int

def layout : Layout := ⟨-5, 15⟩

def positional (ds : List Char) (exponent : Int) : List Char :=
  if 0 ≤ exponent then ds ++ List.replicate exponent.toNat '0' ++ ['.', '0']
  else
    let places := (-exponent).toNat
    if ds.length ≤ places then '0' :: '.' :: List.replicate (places - ds.length) '0' ++ ds
    else ds.take (ds.length - places) ++ '.' :: ds.drop (ds.length - places)

/-- One digit before the point, and the power of ten of that digit. -/
def scientific (ds : List Char) (top : Int) : List Char :=
  let fraction := if ds.length ≤ 1 then [] else '.' :: ds.drop 1
  ds.take 1 ++ fraction ++ 'e' :: (if top < 0 then '-' else '+') :: decimal top.natAbs

def chars (d : Decimal) : List Char :=
  let ds := decimal d.digits
  let top := d.exponent + ds.length - 1
  if layout.least ≤ top ∧ top ≤ layout.greatest then positional ds d.exponent
  else scientific ds top

end Decimal

/-- The text of a finite value: the shortest decimal that reads back as it. -/
def Binary64.chars (x : Binary64) : List Char :=
  if x.isNegative then '-' :: (Decimal.shortest x.magnitude).chars
  else (Decimal.shortest x.magnitude).chars

end HourlyUsage
