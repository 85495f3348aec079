import ExprScript.Grammar.Program

namespace ExprScript

/-- A place in a list of tokens, from which a caller follows rules one by one, and the errors
recorded on the way. -/
structure Cursor where
  /-- The tokens passed, the nearest first. -/
  passed : List Token
  ahead : List Token
  errors : List SyntaxError
deriving DecidableEq

namespace Cursor

def ofTokens (ts : List Token) : Cursor := ⟨[], ts, []⟩

def tokens (c : Cursor) : List Token := c.passed.reverse ++ c.ahead

def position (c : Cursor) : Nat := c.passed.length

/-- Moves on to where only the given end of the tokens is ahead. -/
def moveTo (c : Cursor) (rest : List Token) : Cursor :=
  { c with
    passed := (c.ahead.take (c.ahead.length - rest.length)).reverse ++ c.passed
    ahead := rest }

theorem moveTo_tokens (c : Cursor) {rest : List Token} (left : rest <:+ c.ahead) :
    (c.moveTo rest).tokens = c.tokens := by
  obtain ⟨taken, whole⟩ := left
  simp [tokens, moveTo, ← whole]

def peek (c : Cursor) : Except Failure Token :=
  match c.ahead with
  | [] => .error .outOfTokens
  | t :: _ => .ok t

def isAtEnd (c : Cursor) : Except Failure Bool := c.peek.map (·.kind = .eof)

/-- The token passed last. In front of all tokens it is the last token of the list. -/
def previous (c : Cursor) : Except Failure Token :=
  match c.passed.head?.or c.ahead.getLast? with
  | some t => .ok t
  | none => .error .outOfTokens

/-- Passes a token unless it is the end, and gives the token passed last. -/
def advance (c : Cursor) : Except Failure (Token × Cursor) := do
  let moved := if ← c.isAtEnd then c else c.moveTo (c.ahead.drop 1)
  return (← moved.previous, moved)

def check (c : Cursor) (k : Kind) : Except Failure Bool := c.peek.map (·.isA k)

def accept (c : Cursor) : List Kind → Except Failure (Bool × Cursor)
  | [] => .ok (false, c)
  | k :: kinds => do
    if ← c.check k then return (true, c.moveTo (c.ahead.drop 1)) else c.accept kinds

def after {α : Type} (c : Cursor) (r : Reply α) : Except Failure α × Cursor :=
  (r.result, c.moveTo r.rest)

def follow {α : Type} (c : Cursor) (rule : Rule α) : Except Failure α × Cursor :=
  c.after (rule.run c.ahead)

def wholeExpression (c : Cursor) : Except Failure Expression × Cursor :=
  c.after (Grammar.wholeExpression c.ahead)

def synchronize (c : Cursor) : Except Failure Unit × Cursor :=
  c.after (Grammar.synchronize c.ahead)

def afterRecovery {α : Type} (c : Cursor) (r : Grammar.Recovered α) : Except Failure α × Cursor :=
  let moved := c.moveTo r.rest
  (r.result, { moved with errors := c.errors ++ r.errors })

def declaration (c : Cursor) : Except Failure (Option Statement) × Cursor :=
  c.afterRecovery (Grammar.declaration c.ahead)

def program (c : Cursor) : Except Failure (List Statement) × Cursor :=
  c.afterRecovery (Grammar.program c.ahead)

end Cursor

end ExprScript
