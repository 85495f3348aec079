import ExprScript.Number.Binary64

namespace ExprScript.Number

/-- A decimal number `mantissa * 10 ^ exponent`. -/
structure Decimal where
  mantissa : Nat
  exponent : Int
deriving DecidableEq, Repr

namespace Decimal

def toRat (d : Decimal) : Rat := d.mantissa * 10 ^ d.exponent

/-- The digits of the mantissa, with no leading zero unless it is zero. -/
def digits (d : Decimal) : List Char := Nat.toDigits 10 d.mantissa

def order (d : Decimal) : Int := d.digits.length - 1 + d.exponent

def toFloat (negative : Bool) (d : Decimal) : Float := ofMagnitude negative d.toRat

/-- The nearest number with a clear sign bit is `x`, which is finite. -/
def ReadsBackTo (d : Decimal) (x : Float) : Prop := nearestBits d.toRat = magnitudeBits x

instance (d : Decimal) (x : Float) : Decidable (d.ReadsBackTo x) :=
  inferInstanceAs (Decidable (_ = _))

def trimZeros (mantissa : Nat) (exponent : Int) : Decimal :=
  if h : mantissa ≠ 0 ∧ mantissa % 10 = 0 then trimZeros (mantissa / 10) (exponent + 1)
  else ⟨mantissa, exponent⟩
termination_by mantissa
decreasing_by omega

end Decimal

end ExprScript.Number
