import ExprScript.Bindings
import ExprScript.Expression
import ExprScript.Number.Division

namespace ExprScript

inductive Cause where
  | undefined (name : String)
  | operandNotNumber
  | operandsNotNumbers (operator : String)
  | operandsNotAddable
  /-- A quotient by zero is asked for. Division takes care not to. -/
  | divisionByZero
  | tooDeep
deriving DecidableEq, Repr

def Cause.message : Cause → String
  | .undefined name => s!"Undefined variable '{name}'."
  | .operandNotNumber => "Operand must be a number."
  | .operandsNotNumbers operator => s!"Operands of '{operator}' must be numbers."
  | .operandsNotAddable => "Operands of '+' must be two numbers or two strings."
  | .divisionByZero => "float division by zero"
  | .tooDeep => "Expression too deeply nested."

/-- An error of a running script, with the token nearest to it if there is one. -/
structure RuntimeError where
  token : Option Token
  cause : Cause
deriving DecidableEq

def RuntimeError.message (e : RuntimeError) : String := e.cause.message

/-- What stops an evaluation: an error at one of its nodes, or a nesting too deep to go into. -/
inductive Halt where
  | error (e : RuntimeError)
  | tooDeep
deriving DecidableEq

def Bindings.fetch (b : Bindings) (name : Token) : Except RuntimeError Value :=
  match b.get? name.lexeme with
  | some v => .ok v
  | none => .error ⟨some name, .undefined name.lexeme⟩

namespace UnaryOp

def apply (op : UnaryOp) (v : Value) : Except Cause Value :=
  match op, v with
  | not, v => .ok (.bool (!v.isTruthy))
  | negate, .number x => .ok (.number (-x))
  | negate, _ => .error .operandNotNumber

end UnaryOp

namespace BinaryOp

/-- The operation of an operator that is for numbers only. -/
def numeric? : BinaryOp → Option (Float → Float → Except Cause Value)
  | greater => some fun x y => .ok (.bool (x > y))
  | greaterEqual => some fun x y => .ok (.bool (x ≥ y))
  | less => some fun x y => .ok (.bool (x < y))
  | lessEqual => some fun x y => .ok (.bool (x ≤ y))
  | subtract => some fun x y => .ok (.number (x - y))
  | divide => some fun x y =>
    match Number.divide? x y with
    | some quotient => .ok (.number quotient)
    | none => .error .divisionByZero
  | multiply => some fun x y => .ok (.number (x * y))
  | notEqual | equal | add => none

/-- The value of an operator on two values. The lexeme is the name of the operator in errors. -/
def apply (op : BinaryOp) (lexeme : String) (v w : Value) : Except Cause Value :=
  match op with
  | equal => .ok (.bool (v.same w))
  | notEqual => .ok (.bool (!v.same w))
  | add =>
    match v, w with
    | .number x, .number y => .ok (.number (x + y))
    | .text s, .text t => .ok (.text (s ++ t))
    | _, _ => .error .operandsNotAddable
  | op =>
    match op.numeric?, v, w with
    | some f, .number x, .number y => f x y
    | _, _, _ => .error (.operandsNotNumbers lexeme)

end BinaryOp

/-- An outcome at the token of an operator or a name. -/
def located (t : Token) : Except Cause Value → Except Halt Value
  | .ok v => .ok v
  | .error cause => .error (.error ⟨some t, cause⟩)

namespace Expression

def evaluationLimit : Nat := 330

/-- The value of an expression, going down at most the given number of nodes. The left operand is
done before the right one starts, and both before the operator looks at them. -/
def evaluateWithin (b : Bindings) : Nat → Expression → Except Halt Value
  | 0, _ => .error .tooDeep
  | _ + 1, .literal v => .ok v
  | depth + 1, .group inner => inner.evaluateWithin b depth
  | depth + 1, .unary op operand => do
    let v ← operand.evaluateWithin b depth
    located op.unaryToken (op.op.apply v)
  | depth + 1, .binary left op right => do
    let v ← left.evaluateWithin b depth
    let w ← right.evaluateWithin b depth
    located op.binaryToken (op.op.apply op.lexeme v w)
  | _ + 1, .variable name => (b.fetch name).mapError .error

def evaluate (e : Expression) (b : Bindings) : Except Halt Value :=
  e.evaluateWithin b evaluationLimit

end Expression

end ExprScript
