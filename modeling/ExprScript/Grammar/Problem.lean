import ExprScript.Expression

namespace ExprScript

/-- What is wrong at a token. A caller may word a problem itself. -/
inductive SyntaxProblem where
  | expectExpression
  | expectEnd
  | expectName
  | expectParen
  | expectSemicolonAfterValue
  | expectSemicolonAfterExpression
  | tooDeep
  | worded (message : String)
deriving DecidableEq, Repr

def SyntaxProblem.message : SyntaxProblem → String
  | .expectExpression => "Expect expression."
  | .expectEnd => "Expect end of expression."
  | .expectName => "Expect variable name."
  | .expectParen => "Expect ')' after expression."
  | .expectSemicolonAfterValue => "Expect ';' after value."
  | .expectSemicolonAfterExpression => "Expect ';' after expression."
  | .tooDeep => "Expression nesting too deep."
  | .worded message => message

/-- A violation of the grammar, at the token that cannot stand where it does. -/
structure SyntaxError where
  token : Token
  problem : SyntaxProblem
deriving DecidableEq

inductive Failure where
  | violation (error : SyntaxError)
  /-- The nesting is deeper than a reading may go. -/
  | tooDeep
  /-- The tokens end without the token that marks the end. -/
  | outOfTokens
  /-- A literal token carries a datum that is no value. -/
  | badLiteral (why : DatumError)
deriving DecidableEq

def Failure.message : Failure → String
  | .violation e => e.problem.message
  | .tooDeep => SyntaxProblem.tooDeep.message
  | .outOfTokens => "list index out of range"
  | .badLiteral why => why.message

end ExprScript
