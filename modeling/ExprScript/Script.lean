import ExprScript.Grammar.Program
import ExprScript.Token.Lexer

namespace ExprScript

structure Script where
  statements : List Statement
  lexical : List LexicalError
  syntactic : List SyntaxError
deriving DecidableEq

namespace Script

/-- Reads a source text. Its tokens end with the end mark and its literals carry values, so the
reading of statements reaches the end. -/
def read (source : String) : Script :=
  let scanned := scan source
  let reading := Grammar.program scanned.tokens
  let statements := match reading.result with
    | .ok statements => statements
    | .error _ => []
  ⟨statements, scanned.errors, reading.errors⟩

def isSound (s : Script) : Bool := s.lexical.isEmpty && s.syntactic.isEmpty

end Script

end ExprScript
