namespace ExprScript

inductive Kind where
  | leftParen | rightParen | leftBrace | rightBrace | comma | dot | minus | plus | semicolon
  | slash | star
  | bang | bangEqual | equal | equalEqual | greater | greaterEqual | less | lessEqual
  | identifier | string | number
  | andWord | classWord | elseWord | falseWord | forWord | funWord | ifWord | nilWord | orWord
  | printWord | returnWord | superWord | thisWord | trueWord | varWord | whileWord
  | eof
deriving DecidableEq, Repr

namespace Kind

/-- Every kind, in the order of their codes. -/
def all : List Kind :=
  [leftParen, rightParen, leftBrace, rightBrace, comma, dot, minus, plus, semicolon, slash, star,
    bang, bangEqual, equal, equalEqual, greater, greaterEqual, less, lessEqual,
    identifier, string, number,
    andWord, classWord, elseWord, falseWord, forWord, funWord, ifWord, nilWord, orWord,
    printWord, returnWord, superWord, thisWord, trueWord, varWord, whileWord,
    eof]

def name : Kind → String
  | leftParen => "LEFT_PAREN"
  | rightParen => "RIGHT_PAREN"
  | leftBrace => "LEFT_BRACE"
  | rightBrace => "RIGHT_BRACE"
  | comma => "COMMA"
  | dot => "DOT"
  | minus => "MINUS"
  | plus => "PLUS"
  | semicolon => "SEMICOLON"
  | slash => "SLASH"
  | star => "STAR"
  | bang => "BANG"
  | bangEqual => "BANG_EQUAL"
  | equal => "EQUAL"
  | equalEqual => "EQUAL_EQUAL"
  | greater => "GREATER"
  | greaterEqual => "GREATER_EQUAL"
  | less => "LESS"
  | lessEqual => "LESS_EQUAL"
  | identifier => "IDENTIFIER"
  | string => "STRING"
  | number => "NUMBER"
  | andWord => "AND"
  | classWord => "CLASS"
  | elseWord => "ELSE"
  | falseWord => "FALSE"
  | forWord => "FOR"
  | funWord => "FUN"
  | ifWord => "IF"
  | nilWord => "NIL"
  | orWord => "OR"
  | printWord => "PRINT"
  | returnWord => "RETURN"
  | superWord => "SUPER"
  | thisWord => "THIS"
  | trueWord => "TRUE"
  | varWord => "VAR"
  | whileWord => "WHILE"
  | eof => "EOF"

def code (k : Kind) : Nat := all.idxOf k + 1

def ofName? (name : String) : Option Kind := all.find? (·.name = name)

/-- The characters that are a token by themselves, whatever follows. -/
def singles : List (Char × Kind) :=
  [('(', leftParen), (')', rightParen), ('\x7b', leftBrace), ('\x7d', rightBrace), (',', comma),
    ('.', dot), ('-', minus), ('+', plus), (';', semicolon), ('*', star)]

/-- The characters that form another token when an equals sign follows. -/
def pairs : List (Char × Kind × Kind) :=
  [('!', bang, bangEqual), ('=', equal, equalEqual), ('<', less, lessEqual),
    ('>', greater, greaterEqual)]

def keywords : List (String × Kind) :=
  [("and", andWord), ("class", classWord), ("else", elseWord), ("false", falseWord),
    ("for", forWord), ("fun", funWord), ("if", ifWord), ("nil", nilWord), ("or", orWord),
    ("print", printWord), ("return", returnWord), ("super", superWord), ("this", thisWord),
    ("true", trueWord), ("var", varWord), ("while", whileWord)]

/-- The kind of a word: its own if it is reserved. -/
def ofWord (word : String) : Kind := (keywords.lookup word).getD identifier

end Kind

end ExprScript
