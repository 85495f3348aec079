import ExprScript.Number.Layout

namespace ExprScript

inductive Value where
  | nil
  | bool (b : Bool)
  | number (x : Float)
  | text (s : String)
deriving DecidableEq

namespace Value

/-- Only nil and false count as false. -/
def isTruthy : Value → Bool
  | .nil => false
  | .bool b => b
  | .number _ => true
  | .text _ => true

/-- Equality of the language. Values of different kinds differ, and not-a-number equals itself. -/
def same : Value → Value → Bool
  | .nil, .nil => true
  | .bool a, .bool b => a == b
  | .number x, .number y => Number.same x y
  | .text s, .text t => s == t
  | _, _ => false

def display : Value → String
  | .nil => "nil"
  | .bool true => "true"
  | .bool false => "false"
  | .number x => String.ofList (Number.write .display x)
  | .text s => s

end Value

end ExprScript
