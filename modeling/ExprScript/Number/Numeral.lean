import ExprScript.Number.Decimal
import ExprScript.Text.Blank
import ExprScript.Text.DecimalDigit

namespace ExprScript.Number.Numeral
open Text

/-- The blanks of the first 128 characters that may surround a numeral. -/
def isPadding (c : Char) : Bool := c = ' ' || (0x09 ≤ c.toNat && c.toNat ≤ 0x0D)

/-- Text beyond the first 128 characters is read through them: any other blank as a space, a digit
of any script as the digit of the same value. Nothing else can stand in a numeral. -/
def fold? (c : Char) : Option Char :=
  if c.toNat < 128 then some c
  else if isBlank c then some ' '
  else (decimalDigit? c).map Nat.digitChar

/-- Drops underscores. Each has to stand between two digits. -/
def dropSeparators (afterDigit : Bool) : List Char → Option (List Char)
  | [] => some []
  | [c] => if c = '_' then none else some [c]
  | c :: next :: rest =>
    if c = '_' then
      if afterDigit && next.isDigit then dropSeparators false (next :: rest) else none
    else (dropSeparators c.isDigit (next :: rest)).map (c :: ·)

def splitSign : List Char → Bool × List Char
  | '-' :: rest => (true, rest)
  | '+' :: rest => (false, rest)
  | cs => (false, cs)

/-- What follows the digits: nothing, or a marked exponent with at least one digit. -/
def exponent? : List Char → Option Int
  | [] => some 0
  | mark :: rest =>
    let (negative, digits) := splitSign rest
    if (mark = 'e' || mark = 'E') && digits ≠ [] && digits.all Char.isDigit then
      let size : Int := Nat.ofDigitChars 10 digits 0
      some (if negative then -size else size)
    else none

/-- An exponent beyond which a number with that many digits is zero or infinite anyway. -/
def clampExponent (digits : Nat) (exponent : Int) : Int :=
  max (-(400 + digits : Nat)) (min (400 + digits : Nat) exponent)

/-- The digits of a numeral without a sign, how many of them stand behind the point, and the
exponent. There is at least one digit. -/
def parts? (cs : List Char) : Option (List Char × Nat × Int) :=
  let (whole, afterWhole) := cs.span Char.isDigit
  let (fraction, rest) := match afterWhole with
    | '.' :: more => more.span Char.isDigit
    | other => ([], other)
  let digits := whole ++ fraction
  if digits = [] then none
  else (exponent? rest).map (digits, fraction.length, ·)

/-- The decimal number that a numeral without a sign spells, with its exponent clamped. -/
def decimal? (cs : List Char) : Option Decimal :=
  (parts? cs).map fun (digits, places, exponent) =>
    ⟨Nat.ofDigitChars 10 digits 0, clampExponent digits.length exponent - places⟩

def unsigned? (negative : Bool) (cs : List Char) : Option Float :=
  let lower := cs.map Char.toLower
  if lower = ['i', 'n', 'f'] || lower = ['i', 'n', 'f', 'i', 'n', 'i', 't', 'y'] then
    some (if negative then -infinity else infinity)
  else if lower = ['n', 'a', 'n'] then some notANumber
  else (decimal? cs).map (·.toFloat negative)

def read? (cs : List Char) : Option Float := do
  let folded ← cs.mapM fold?
  let bare ← dropSeparators false (trim isPadding folded)
  let (negative, rest) := splitSign bare
  unsigned? negative rest

end ExprScript.Number.Numeral
