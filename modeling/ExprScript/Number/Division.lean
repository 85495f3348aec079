import ExprScript.Number.Binary64

namespace ExprScript.Number

/-- The quotient of two numbers. There is none by zero. -/
def quotient? (x y : Float) : Option Float := if y == 0 then none else some (x / y)

def copySign (x y : Float) : Float :=
  Float.ofBits (.ofNat (magnitudeBits x + if isNegative y then signBit else 0))

/-- Division that goes on at a zero. Zero and not-a-number over zero are not-a-number. Anything else
over zero is infinite, under the sign of both. -/
def divide? (x y : Float) : Option Float :=
  if y != 0 then quotient? x y
  else if x == 0 || x.isNaN then some notANumber
  else some (copySign infinity x * copySign 1 y)

end ExprScript.Number
