/-
# Decimal literals

The value of a JSON number. A literal without fraction and exponent that fits 64
bits, signed or unsigned, is an integer; any other is the double nearest to it, a
tie going to the even one. `-0` is a float, for no integer has a sign on zero.

Key definitions: `Decimal`, `Decimal.float?`, `Decimal.value?`.
-/
import Statechart.Binary64
import Statechart.Json

namespace Statechart

/-- A decimal literal in parts: the digits as one number, the places after the
point, and the exponent as written. -/
structure Decimal where
  negative : Bool
  digits : Nat
  places : Nat
  exponent : Int
  /-- The literal is digits alone. -/
  whole : Bool

namespace Decimal

/-- The digits of a positive number. -/
def width (n : Nat) : Nat := (Nat.toDigits 10 n).length

/-- The literal's size as a double, if some finite one is nearest to it. What is
below the least double by many orders is zero, and what is above the greatest one
by many is refused, before any power of ten is computed. -/
def magnitude? (d : Decimal) : Option Float :=
  let e := d.exponent - d.places
  let top := e + width d.digits
  if d.digits = 0 || top < -400 then some 0.0
  else if 400 < top then none
  else if 0 ≤ e then Binary64.nearest? (d.digits * Nat.pow 10 e.toNat) 1
  else Binary64.nearest? d.digits (Nat.pow 10 (-e).toNat)

def float? (d : Decimal) : Option Float :=
  d.magnitude?.map fun x => if d.negative then -x else x

/-- The literal as an integer, if it is one that fits 64 bits. -/
def int? (d : Decimal) : Option Int :=
  if !d.whole then none
  else if d.negative then
    if 0 < d.digits && d.digits ≤ Nat.pow 2 63 then some (-d.digits) else none
  else if d.digits < Nat.pow 2 64 then some d.digits else none

/-- The value of the literal; `none` for a size beyond the doubles. -/
def value? (d : Decimal) : Option Json :=
  match d.int? with
  | some i => some (.int i)
  | none => d.float?.map .float

end Decimal
end Statechart
