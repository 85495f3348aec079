import ExprScript.Token.Datum
import ExprScript.Token.Kind

namespace ExprScript

/-- One lexeme of a script, with the line on which it ends. -/
structure Token where
  kind : Kind
  lexeme : String
  datum : Datum
  line : Int
deriving DecidableEq

def Token.describe (t : Token) : String := s!"{t.kind.name} {t.lexeme} {t.datum.describe}"

/-- The token that ends every list of tokens made from text. -/
def Token.ending (line : Int) : Token := ⟨.eof, "", .nil, line⟩

end ExprScript
