import ExprScript.Expression
import ExprScript.Text.Quoted

namespace ExprScript

inductive SourceFault where
  /-- No string of the language can hold a double quote. -/
  | unspellable (text : String)
  | tooDeep
deriving DecidableEq, Repr

/-- The source text of a number. The language has no signed and no infinite numerals, so a negative
number is a negation and the others are the divisions that produce them. -/
def Number.source (x : Float) : String :=
  if x.isNaN then "(0 / 0)"
  else if x.isInf then (if isNegative x then "(-1 / 0)" else "(1 / 0)")
  else
    let digits := String.ofList (writeMagnitude .plain x)
    if isNegative x then "(-" ++ digits ++ ")" else digits

def Value.source : Value → Except SourceFault String
  | .nil => .ok "nil"
  | .bool true => .ok "true"
  | .bool false => .ok "false"
  | .number x => .ok (Number.source x)
  | .text s => if s.toList.contains '\x22' then .error (.unspellable s) else .ok ("\"" ++ s ++ "\"")

namespace Expression

def sourceLimit : Nat := 328

/-- The source text of an expression of at most the given height, written from left to right. Each
operator stands in parentheses with its operands. -/
def writeSource : Nat → Expression → Except SourceFault String
  | 0, _ => .error .tooDeep
  | _ + 1, .literal v => v.source
  | height + 1, .group inner => do
    let inside ← inner.writeSource height
    return "(" ++ inside ++ ")"
  | height + 1, .unary op operand => do
    let inside ← operand.writeSource height
    return "(" ++ op.lexeme ++ inside ++ ")"
  | height + 1, .binary left op right => do
    let first ← left.writeSource height
    let second ← right.writeSource height
    return "(" ++ first ++ " " ++ op.lexeme ++ " " ++ second ++ ")"
  | _ + 1, .variable name => .ok name.lexeme

def source (e : Expression) : Except SourceFault String := e.writeSource sourceLimit

end Expression

namespace Statement

def source : Statement → Except SourceFault String
  | .expression e => do return (← e.source) ++ ";"
  | .print e => do return "print " ++ (← e.source) ++ ";"
  | .declare name none => .ok ("var " ++ name.lexeme ++ ";")
  | .declare name (some e) => do return "var " ++ name.lexeme ++ " = " ++ (← e.source) ++ ";"

end Statement

def SourceFault.message : SourceFault → String
  | .unspellable text => "string literal cannot contain '\"': " ++ Text.quoted text
  | .tooDeep => "expression too deeply nested"

end ExprScript
