namespace ExprScript.Number

/-- The largest integer `k` with `2 ^ k ≤ q`, for positive `q`. -/
def binaryOrder (q : Rat) : Int :=
  if 1 ≤ q then q.floor.toNat.log2 else -((q⁻¹.ceil.toNat - 1).log2 + 1)

def roundHalfEven (q : Rat) : Int :=
  let below := q.floor
  let excess := q - below
  if excess < 1 / 2 then below
  else if 1 / 2 < excess then below + 1
  else if below % 2 = 0 then below
  else below + 1

/-- The lowest bit of the exponent field, and the leading bit of a full significand. -/
def fieldBit : Nat := 0x10000000000000

/-- The bits of positive infinity, one above those of the largest finite number. -/
def infinityBits : Nat := 0x7FF0000000000000

def signBit : Nat := 0x8000000000000000

/-- The exponent of the last place that a number of size `q` has room for. -/
def lastPlace (q : Rat) : Int := max (binaryOrder q - 52) (-1074)

/-- The bits of the number nearest to `q`, its sign bit clear. The significand is added to the
exponent field with its leading bit, so a significand that rounds up to the next power of two
carries into the exponent, and past the largest finite number the sum stops at infinity. -/
def nearestBits (q : Rat) : Nat :=
  if q ≤ 0 then 0
  else
    let place := lastPlace q
    let significand := (roundHalfEven (q / 2 ^ place)).toNat
    min (significand + (place + 1074).toNat * fieldBit) infinityBits

/-- The number nearest to `q`, which is not negative, under the given sign. -/
def ofMagnitude (negative : Bool) (q : Rat) : Float :=
  Float.ofBits (.ofNat (nearestBits q + if negative then signBit else 0))

def magnitudeBits (x : Float) : Nat := x.toBits.toNat % signBit

def isNegative (x : Float) : Bool := signBit ≤ x.toBits.toNat

def exponentField (x : Float) : Nat := magnitudeBits x / fieldBit

/-- The significand of a finite number, with its leading bit unless the exponent field is zero. -/
def significand (x : Float) : Nat :=
  magnitudeBits x % fieldBit + if exponentField x = 0 then 0 else fieldBit

def place (x : Float) : Int := max (exponentField x : Int) 1 - 1075

def magnitude (x : Float) : Rat := significand x * 2 ^ place x

def infinity : Float := Float.ofBits 0x7FF0000000000000

def notANumber : Float := Float.ofBits 0x7FF8000000000000

/-- The number nearest to a whole number, if it is not past the largest finite one. -/
def ofInt? (n : Int) : Option Float :=
  let q : Rat := n.natAbs
  if nearestBits q < infinityBits then some (ofMagnitude (n < 0) q) else none

/-- Equality of numbers: as for reals, with the two zeros equal, and one class of not-a-number. -/
def same (x y : Float) : Bool := x == y || (x.isNaN && y.isNaN)

end ExprScript.Number
