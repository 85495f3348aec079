import ExprScript.Text.Quoted

namespace ExprScript

/-- What is wrong with a piece of text. A caller may word a problem itself. -/
inductive LexicalProblem where
  | unexpectedCharacter
  | unterminatedString
  | worded (message : String)
deriving DecidableEq, Repr

def LexicalProblem.message : LexicalProblem → String
  | .unexpectedCharacter => "Unexpected character."
  | .unterminatedString => "Unterminated string."
  | .worded message => message

structure LexicalError where
  line : Int
  problem : LexicalProblem
deriving DecidableEq, Repr

inductive LexerFault where
  | pastEnd
  /-- A lexeme that should be a numeral cannot be read as one. -/
  | illegible (lexeme : String)
deriving DecidableEq, Repr

def LexerFault.message : LexerFault → String
  | .pastEnd => "string index out of range"
  | .illegible lexeme => "could not convert string to float: " ++ Text.quoted lexeme

end ExprScript
