import ExprScript.Operator

namespace ExprScript

inductive Expression where
  | literal (v : Value)
  | group (inner : Expression)
  | unary (op : Operator UnaryOp) (operand : Expression)
  | binary (left : Expression) (op : Operator BinaryOp) (right : Expression)
  | variable (name : Token)
deriving DecidableEq

/-- Why an expression cannot be built from the given parts. -/
inductive NodeError where
  | notUnary (lexeme : String)
  | notBinary (lexeme : String)
  | badLiteral (why : DatumError)
deriving DecidableEq, Repr

def NodeError.message : NodeError → String
  | .notUnary lexeme => s!"'{lexeme}' is not a unary operator"
  | .notBinary lexeme => s!"'{lexeme}' is not a binary operator"
  | .badLiteral why => why.message

namespace Expression

def ofDatum (d : Datum) : Except NodeError Expression :=
  match d.value? with
  | .ok v => .ok (.literal v)
  | .error why => .error (.badLiteral why)

def ofUnary (op : Token) (operand : Expression) : Except NodeError Expression :=
  match op.unary? with
  | some o => .ok (.unary o operand)
  | none => .error (.notUnary op.lexeme)

def ofBinary (left : Expression) (op : Token) (right : Expression) :
    Except NodeError Expression :=
  match op.binary? with
  | some o => .ok (.binary left o right)
  | none => .error (.notBinary op.lexeme)

/-- The number of nodes on the longest way down. -/
def height : Expression → Nat
  | .literal _ => 1
  | .group inner => inner.height + 1
  | .unary _ operand => operand.height + 1
  | .binary left _ right => max left.height right.height + 1
  | .variable _ => 1

def ungrouped : Expression → Expression
  | .group inner => inner.ungrouped
  | e => e

/-- The token to point at for an expression as a whole: its outermost operator or name. -/
def token? (e : Expression) : Option Token :=
  match e.ungrouped with
  | .unary op _ => some op.unaryToken
  | .binary _ op _ => some op.binaryToken
  | .variable name => some name
  | _ => none

end Expression

inductive Statement where
  | expression (e : Expression)
  | print (e : Expression)
  | declare (name : Token) (initial : Option Expression)
deriving DecidableEq

namespace Statement

def token? : Statement → Option Token
  | .expression e => e.token?
  | .print e => e.token?
  | .declare name _ => some name

end Statement

end ExprScript
