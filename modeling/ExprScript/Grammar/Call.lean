import ExprScript.Grammar.Cursor

namespace ExprScript

namespace Cursor

inductive Call where
  | program
  | wholeExpression
  | declaration
  | statement
  | declarationBody
  | printBody
  | expressionStatement
  | expression
  /-- Operands joined by operators of at least the level. -/
  | binary (level : Level)
  | unary
  | primary
  | synchronize
  | accept (kinds : List Kind)
  | check (k : Kind)
  | expect (k : Kind) (message : String)
  | advance
  | peek
  | previous
  | isAtEnd
deriving DecidableEq

inductive Answer where
  | nothing
  | truth (b : Bool)
  | token (t : Token)
  | expression (e : Expression)
  | statement (s : Statement)
  | statements (read : List Statement)
deriving DecidableEq

def Answer.isNode : Answer → Bool
  | .expression _ | .statement _ => true
  | _ => false

/-- The outcome of a call and the cursor after it. A call that fails may have moved the cursor. -/
abbrev Outcome (α : Type) := Except Failure α × Cursor

def answer {α : Type} (wrap : α → Answer) (o : Outcome α) : Outcome Answer := (o.1.map wrap, o.2)

/-- The outcome of a look, which does not move the cursor. -/
def looked {α : Type} (c : Cursor) (seen : Except Failure α) : Outcome α := (seen, c)

/-- The outcome of a move, which is not made when it fails. -/
def moved {α : Type} (c : Cursor) : Except Failure (α × Cursor) → Outcome α
  | .ok (a, d) => (.ok a, d)
  | .error why => (.error why, c)

def perform (c : Cursor) : Call → Outcome Answer
  | .program => answer .statements c.program
  | .wholeExpression => answer .expression c.wholeExpression
  | .declaration => answer (·.elim .nothing .statement) c.declaration
  | .statement => answer .statement (c.follow Grammar.plainStatement)
  | .declarationBody => answer .statement (c.follow Grammar.declarationBody)
  | .printBody => answer .statement (c.follow Grammar.printBody)
  | .expressionStatement => answer .statement (c.follow Grammar.expressionStatement)
  | .expression => answer .expression (c.follow Grammar.expression)
  | .binary level => answer .expression (c.follow (Grammar.binary level))
  | .unary => answer .expression (c.follow (Grammar.unary Grammar.nestingLimit))
  | .primary => answer .expression (c.follow Grammar.primary)
  | .synchronize => answer (fun _ => .nothing) c.synchronize
  | .accept kinds => answer .truth (c.moved (c.accept kinds))
  | .check k => answer .truth (c.looked (c.check k))
  | .expect k message => answer .token (c.follow (Rule.expect k (.worded message)))
  | .advance => answer .token (c.moved c.advance)
  | .peek => answer .token (c.looked c.peek)
  | .previous => answer .token (c.looked c.previous)
  | .isAtEnd => answer .truth (c.looked c.isAtEnd)

/-- The cursor after calls made one after another, each where the one before has left it, whether
that failed or not. -/
def performAll (c : Cursor) (calls : List Call) : Cursor :=
  calls.foldl (fun c call => (c.perform call).2) c

end Cursor

end ExprScript
