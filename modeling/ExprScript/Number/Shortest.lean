import ExprScript.Number.Decimal

namespace ExprScript.Number.Decimal

/-- The exponent of the leading digit of a positive `q`. -/
def leadingOrder (q : Rat) : Int :=
  if 1 ≤ q then (Nat.toDigits 10 q.floor.toNat).length - 1
  else -(Nat.toDigits 10 (q⁻¹.ceil.toNat - 1)).length

def exact (x : Float) : Decimal :=
  let q := magnitude x
  let places := q.den.log2
  ⟨q.num.toNat * Nat.pow 5 places, -places⟩

/-- The neighbours of a positive `q` on the grid of the decimals with the given exponent, the nearer
one first. Of two equally near ones the even one is first. -/
def neighbours (q : Rat) (exponent : Int) : List Decimal :=
  let scaled := q / 10 ^ exponent
  let nearest := roundHalfEven scaled
  let below := scaled.floor
  let other := if nearest = below then below + 1 else below
  [⟨nearest.toNat, exponent⟩, ⟨other.toNat, exponent⟩]

/-- Decimals near a positive finite number, those with fewer digits first. Every digit of the number
itself stands last, so one of them always reads back. -/
def candidates (x : Float) : List Decimal :=
  let q := magnitude x
  let order := leadingOrder q
  (List.range 17).flatMap (fun fewer : Nat => neighbours q (order - fewer)) ++ [exact x]

/-- The decimal with the fewest digits that reads back as a finite number's magnitude, and of those
the nearest to it. Zero is the single digit zero. -/
def shortest (x : Float) : Decimal :=
  if magnitudeBits x = 0 then ⟨0, 0⟩
  else
    let found := ((candidates x).find? (fun d => d.ReadsBackTo x)).getD (exact x)
    trimZeros found.mantissa found.exponent

end ExprScript.Number.Decimal
