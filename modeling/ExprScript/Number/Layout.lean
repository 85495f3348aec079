import ExprScript.Number.Shortest

namespace ExprScript.Number

structure Layout where
  /-- The orders written in digits alone: at least the first and below the second. All of them
  when there is no range. -/
  plainOrders : Option (Int × Int)
  /-- A whole number written in digits alone ends in a point and a zero. -/
  wholePoint : Bool
deriving DecidableEq, Repr

namespace Layout

def display : Layout := ⟨some (-4, 16), false⟩

/-- The layout of numbers in a list of tokens, where a whole number shows that it is a number. -/
def detailed : Layout := ⟨some (-4, 16), true⟩

/-- The layout of numbers in program text, which knows no exponents. -/
def plain : Layout := ⟨none, false⟩

def allows (layout : Layout) (order : Int) : Bool :=
  match layout.plainOrders with
  | none => true
  | some (low, high) => low ≤ order && order < high

end Layout

namespace Decimal

/-- The digits of the whole part and of the fraction. There is a fraction exactly when the exponent
is negative, and then it has as many digits as the exponent says. -/
def parts (d : Decimal) : List Char × List Char :=
  if 0 ≤ d.exponent then (d.digits ++ List.replicate d.exponent.toNat '0', [])
  else
    let places := (-d.exponent).toNat
    let padded := List.replicate (places + 1 - d.digits.length) '0' ++ d.digits
    padded.splitAt (padded.length - places)

def positional (d : Decimal) (wholePoint : Bool) : List Char :=
  match d.parts with
  | (whole, []) => whole ++ if wholePoint then ['.', '0'] else []
  | (whole, fraction) => whole ++ '.' :: fraction

/-- One digit, the others after a point, and the order with its sign in two digits or more. -/
def scientific (d : Decimal) : List Char :=
  let mantissa := match d.digits with
    | [] => []
    | [digit] => [digit]
    | digit :: rest => digit :: '.' :: rest
  let exponent := Nat.toDigits 10 d.order.natAbs
  let sign := if d.order < 0 then '-' else '+'
  mantissa ++ 'e' :: sign :: List.replicate (2 - exponent.length) '0' ++ exponent

def write (d : Decimal) (layout : Layout) : List Char :=
  if layout.allows d.order then d.positional layout.wholePoint else d.scientific

end Decimal

/-- The magnitude of a finite number, in the fewest digits that read back. -/
def writeMagnitude (layout : Layout) (x : Float) : List Char := (Decimal.shortest x).write layout

def write (layout : Layout) (x : Float) : List Char :=
  if x.isNaN then ['n', 'a', 'n']
  else
    let sign := if isNegative x then ['-'] else []
    sign ++ if x.isInf then ['i', 'n', 'f'] else writeMagnitude layout x

end ExprScript.Number
