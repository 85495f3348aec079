import ExprScript.Grammar.Chain

namespace ExprScript

namespace Grammar

def nestingLimit : Nat := 980

/-- What an open parenthesis takes from the nesting that is left. A prefix operator takes one. -/
def groupCost : Nat := 7

def literalOf (t : Token) : Except Failure Expression :=
  match t.datum.value? with
  | .ok v => .ok (.literal v)
  | .error why => .error (.badLiteral why)

def groupOf (inner : Rule Expression) : Rule Expression :=
  inner.andThen fun e => (Rule.expect .rightParen .expectParen).map fun _ => .group e

/-- What a primary expression does about its first token. There may be no nesting left for the
inside of a group. -/
def primaryStep (inner : Unit → Option (Rule Expression)) (t : Token) : Step Expression :=
  match t.kind with
  | .falseWord => .accept (.ok (.literal (.bool false)))
  | .trueWord => .accept (.ok (.literal (.bool true)))
  | .nilWord => .accept (.ok (.literal .nil))
  | .number | .string => .accept (literalOf t)
  | .identifier => .accept (.ok (.variable t))
  | .leftParen =>
    match inner () with
    | some rule => .descend (groupOf rule)
    | none => .accept (.error .tooDeep)
  | _ => .refuse .expectExpression

/-- A unary expression with the given nesting left. -/
def unary (budget : Nat) : Rule Expression :=
  Rule.onToken fun t =>
    match t.unary? with
    | some op =>
      if 1 ≤ budget then .descend ((unary (budget - 1)).map (.unary op))
      else .accept (.error .tooDeep)
    | none =>
      primaryStep
        (fun _ => if groupCost ≤ budget then some ((unary (budget - groupCost)).joined .equality)
          else none) t
termination_by budget
decreasing_by
  · omega
  · have cost : groupCost = 7 := rfl
    omega

def expressionWithin (budget : Nat) : Rule Expression := (unary budget).joined .equality

def expression : Rule Expression := expressionWithin nestingLimit

/-- Unary expressions joined by operators of at least the given level. -/
def binary (level : Level) : Rule Expression := (unary nestingLimit).joined level

def primary : Rule Expression :=
  Rule.onToken (primaryStep fun _ => some (expressionWithin (nestingLimit - groupCost)))

/-- Reports a nesting that went too deep as a violation at the token where it stopped. -/
def atDepth {α : Type} : Reply α → Reply α
  | ⟨.error .tooDeep, t :: ts⟩ => ⟨.error (.violation ⟨t, .tooDeep⟩), t :: ts⟩
  | ⟨.error .tooDeep, []⟩ => ⟨.error .outOfTokens, []⟩
  | r => r

def wholeExpression (ts : List Token) : Reply Expression :=
  match atDepth (expression.run ts) with
  | ⟨.error why, rest⟩ => ⟨.error why, rest⟩
  | ⟨.ok _, []⟩ => ⟨.error .outOfTokens, []⟩
  | ⟨.ok e, t :: rest⟩ =>
    if t.kind = .eof then ⟨.ok e, t :: rest⟩
    else ⟨.error (.violation ⟨t, .expectEnd⟩), t :: rest⟩

end Grammar

end ExprScript
