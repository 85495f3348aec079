import ExprScript.Expression.Outline
import ExprScript.Grammar.Program

namespace ExprScript

/-- What a tree fixes about one of its tokens. Operators and names stand in the tree as they are,
a literal keeps the datum of its token, and of every other token only the kind is left. -/
inductive Symbol where
  | operator (t : Token)
  | name (t : Token)
  | literal (k : Kind) (d : Datum)
  | mark (k : Kind)
deriving DecidableEq

/-- What a tree with this token in it would fix about the token. -/
def Token.symbol (t : Token) : Symbol :=
  match t.kind with
  | .bang | .minus | .plus | .slash | .star | .bangEqual | .equalEqual | .greater
  | .greaterEqual | .less | .lessEqual => .operator t
  | .identifier => .name t
  | .number | .string => .literal t.kind t.datum
  | k => .mark k

/-- The token's literal is a value of the sort that its kind announces, as in all tokens that are
read from text. -/
def Token.Carries (t : Token) : Prop :=
  (t.kind = .number → ∃ x, t.datum = .value (.number x)) ∧
    (t.kind = .string → ∃ s, t.datum = .value (.text s))

namespace Token

theorem eq_of_symbol_operator {t u : Token} (h : t.symbol = .operator u) : t = u := by
  unfold symbol at h
  split at h <;> simp_all

theorem eq_of_symbol_name {t u : Token} (h : t.symbol = .name u) :
    t = u ∧ t.kind = .identifier := by
  unfold symbol at h
  split at h <;> simp_all

theorem of_symbol_literal {t : Token} {k : Kind} {d : Datum} (h : t.symbol = .literal k d) :
    t.kind = k ∧ t.datum = d := by
  unfold symbol at h
  split at h <;> simp_all

theorem kind_of_symbol_mark {t : Token} {k : Kind} (h : t.symbol = .mark k) : t.kind = k := by
  unfold symbol at h
  split at h <;> simp_all

theorem unary?_eq_some {t : Token} {op : Operator UnaryOp} :
    t.unary? = some op ↔ op.unaryToken = t :=
  Operator.ofToken?_eq_some_iff UnaryOp.ofKind?_eq_some_iff

theorem binary?_eq_some {t : Token} {op : Operator BinaryOp} :
    t.binary? = some op ↔ op.binaryToken = t :=
  Operator.ofToken?_eq_some_iff BinaryOp.ofKind?_eq_some_iff

@[simp] theorem symbol_unaryToken (op : Operator UnaryOp) :
    op.unaryToken.symbol = .operator op.unaryToken := by
  obtain ⟨o, lexeme, datum, line⟩ := op
  cases o <;> rfl

@[simp] theorem symbol_binaryToken (op : Operator BinaryOp) :
    op.binaryToken.symbol = .operator op.binaryToken := by
  obtain ⟨o, lexeme, datum, line⟩ := op
  cases o <;> rfl

@[simp] theorem unary?_unaryToken (op : Operator UnaryOp) : op.unaryToken.unary? = some op :=
  unary?_eq_some.mpr rfl

@[simp] theorem binary?_binaryToken (op : Operator BinaryOp) :
    op.binaryToken.binary? = some op := binary?_eq_some.mpr rfl

end Token

/-- The token of a literal. -/
def Value.symbol : Value → Symbol
  | .nil => .mark .nilWord
  | .bool true => .mark .trueWord
  | .bool false => .mark .falseWord
  | .number x => .literal .number (.value (.number x))
  | .text s => .literal .string (.value (.text s))

namespace Expression

/-- The tokens of an expression from left to right. -/
def yield : Expression → List Symbol
  | .literal v => [v.symbol]
  | .group inner => .mark .leftParen :: inner.yield ++ [.mark .rightParen]
  | .unary op operand => .operator op.unaryToken :: operand.yield
  | .binary left op right => left.yield ++ .operator op.binaryToken :: right.yield
  | .variable name => [.name name]

/-- How tightly the outermost node holds its parts together: as its operator binds, tighter for a
prefix operator, and tightest for what needs no operator. -/
def strength : Expression → Nat
  | .binary _ op _ => op.op.level.rank
  | .unary _ _ => 4
  | .literal _ | .group _ | .variable _ => 5

/-- Every operand binds tightly enough to stand without parentheses, and operators of one level
group from the left. -/
def RespectsPrecedence : Expression → Prop
  | .literal _ | .variable _ => True
  | .group inner => inner.RespectsPrecedence
  | .unary _ operand => operand.RespectsPrecedence ∧ 4 ≤ operand.strength
  | .binary left op right =>
    left.RespectsPrecedence ∧ right.RespectsPrecedence ∧
      op.op.level.rank ≤ left.strength ∧ op.op.level.rank < right.strength

/-- The nesting that reading an expression takes: the most that the groups and prefix operators on
one way down take together. -/
def nesting : Expression → Nat
  | .literal _ | .variable _ => 0
  | .group inner => inner.nesting + Grammar.groupCost
  | .unary _ operand => operand.nesting + 1
  | .binary left _ right => max left.nesting right.nesting

/-- The tokens spell the expression, which can stand where operators of the given rank or higher
may stand, and reading it takes no more than the given nesting. -/
structure SpelledBy (e : Expression) (rank budget : Nat) (ts : List Token) : Prop where
  yields : ts.map Token.symbol = e.yield
  ordered : e.RespectsPrecedence
  strong : rank ≤ e.strength
  shallow : e.nesting ≤ budget

end Expression

namespace Statement

/-- The tokens of a statement from left to right. -/
def yield : Statement → List Symbol
  | .expression e => e.yield ++ [.mark .semicolon]
  | .print e => .mark .printWord :: e.yield ++ [.mark .semicolon]
  | .declare name none => [.mark .varWord, .name name, .mark .semicolon]
  | .declare name (some e) =>
    .mark .varWord :: .name name :: .mark .equal :: e.yield ++ [.mark .semicolon]

/-- Every operand in a statement binds tightly enough. -/
def RespectsPrecedence (s : Statement) : Prop := ∀ e ∈ s.expression?, e.RespectsPrecedence

/-- The statement nests no deeper than a reading may go. -/
def IsShallow (s : Statement) : Prop := ∀ e ∈ s.expression?, e.nesting ≤ Grammar.nestingLimit

/-- The tokens spell the statement, and reading it does not nest too deep. -/
structure SpelledBy (s : Statement) (ts : List Token) : Prop where
  yields : ts.map Token.symbol = s.yield
  ordered : s.RespectsPrecedence
  shallow : s.IsShallow

end Statement

end ExprScript
