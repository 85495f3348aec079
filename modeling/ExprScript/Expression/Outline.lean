import ExprScript.Expression

namespace ExprScript

/-- The text of a value in an outline: as printed, but strings in quotes. -/
def Value.outline : Value → String
  | .text s => "\"" ++ s ++ "\""
  | v => v.display

namespace Expression

/-- The outline of an expression: each node that has parts in parentheses, its name in front. -/
def outline : Expression → String
  | .literal v => v.outline
  | .group inner => "(group " ++ inner.outline ++ ")"
  | .unary op operand => "(" ++ op.lexeme ++ " " ++ operand.outline ++ ")"
  | .binary left op right =>
    "(" ++ op.lexeme ++ " " ++ left.outline ++ " " ++ right.outline ++ ")"
  | .variable name => name.lexeme

def outlineLimit : Nat := 245

def outline? (e : Expression) : Option String :=
  if e.height ≤ outlineLimit then some e.outline else none

end Expression

namespace Statement

def expression? : Statement → Option Expression
  | .expression e => some e
  | .print e => some e
  | .declare _ initial => initial

def outline : Statement → String
  | .expression e => "(; " ++ e.outline ++ ")"
  | .print e => "(print " ++ e.outline ++ ")"
  | .declare name none => "(var " ++ name.lexeme ++ ")"
  | .declare name (some e) => "(var " ++ name.lexeme ++ " = " ++ e.outline ++ ")"

def outline? (s : Statement) : Option String :=
  if s.expression?.all (·.height ≤ Expression.outlineLimit) then some s.outline else none

end Statement

end ExprScript
