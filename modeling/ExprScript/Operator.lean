import ExprScript.Token

namespace ExprScript

inductive UnaryOp where
  | not
  | negate
deriving DecidableEq, Repr

inductive BinaryOp where
  | notEqual | equal
  | greater | greaterEqual | less | lessEqual
  | subtract | add
  | divide | multiply
deriving DecidableEq, Repr

/-- How tightly a binary operator binds. -/
inductive Level where
  | equality | comparison | term | factor
deriving DecidableEq, Repr

namespace Level

def rank : Level → Nat
  | equality => 0
  | comparison => 1
  | term => 2
  | factor => 3

end Level

namespace UnaryOp

def kind : UnaryOp → Kind
  | not => .bang
  | negate => .minus

def ofKind? : Kind → Option UnaryOp
  | .bang => some not
  | .minus => some negate
  | _ => none

theorem ofKind?_eq_some_iff {k : Kind} {op : UnaryOp} : ofKind? k = some op ↔ op.kind = k := by
  cases k <;> cases op <;> simp [ofKind?, kind]

/-- The text that the lexeme of the operator has in a script. -/
def spelling : UnaryOp → String
  | not => "!"
  | negate => "-"

end UnaryOp

namespace BinaryOp

def kind : BinaryOp → Kind
  | notEqual => .bangEqual
  | equal => .equalEqual
  | greater => .greater
  | greaterEqual => .greaterEqual
  | less => .less
  | lessEqual => .lessEqual
  | subtract => .minus
  | add => .plus
  | divide => .slash
  | multiply => .star

def ofKind? : Kind → Option BinaryOp
  | .bangEqual => some notEqual
  | .equalEqual => some equal
  | .greater => some greater
  | .greaterEqual => some greaterEqual
  | .less => some less
  | .lessEqual => some lessEqual
  | .minus => some subtract
  | .plus => some add
  | .slash => some divide
  | .star => some multiply
  | _ => none

theorem ofKind?_eq_some_iff {k : Kind} {op : BinaryOp} : ofKind? k = some op ↔ op.kind = k := by
  cases k <;> cases op <;> simp [ofKind?, kind]

def level : BinaryOp → Level
  | notEqual | equal => .equality
  | greater | greaterEqual | less | lessEqual => .comparison
  | subtract | add => .term
  | divide | multiply => .factor

/-- The text that the lexeme of the operator has in a script. -/
def spelling : BinaryOp → String
  | notEqual => "!="
  | equal => "=="
  | greater => ">"
  | greaterEqual => ">="
  | less => "<"
  | lessEqual => "<="
  | subtract => "-"
  | add => "+"
  | divide => "/"
  | multiply => "*"

end BinaryOp

/-- An operator at its place in a script: a token whose kind is known to be one of the operators.
Its lexeme need not agree with its kind. Evaluation goes by the kind, texts show the lexeme. -/
structure Operator (α : Type) where
  op : α
  lexeme : String
  datum : Datum
  line : Int
deriving DecidableEq

namespace Operator

def toToken {α : Type} (kind : α → Kind) (o : Operator α) : Token :=
  ⟨kind o.op, o.lexeme, o.datum, o.line⟩

/-- The operator that a token is, given which kinds are operators. -/
def ofToken? {α : Type} (ofKind? : Kind → Option α) (t : Token) : Option (Operator α) :=
  (ofKind? t.kind).map (⟨·, t.lexeme, t.datum, t.line⟩)

theorem ofToken?_eq_some_iff {α : Type} {kind : α → Kind} {ofKind? : Kind → Option α}
    (agree : ∀ {k op}, ofKind? k = some op ↔ kind op = k) {t : Token} {o : Operator α} :
    ofToken? ofKind? t = some o ↔ o.toToken kind = t := by
  obtain ⟨op, lexeme, datum, line⟩ := o
  obtain ⟨k, lexeme', datum', line'⟩ := t
  simp only [ofToken?, toToken, Option.map_eq_some_iff, Operator.mk.injEq, Token.mk.injEq]
  constructor
  · rintro ⟨op', found, rfl, rfl, rfl, rfl⟩
    exact ⟨agree.mp found, rfl, rfl, rfl⟩
  · rintro ⟨found, rfl, rfl, rfl⟩
    exact ⟨op, agree.mpr found, rfl, rfl, rfl, rfl⟩

end Operator

def Token.unary? (t : Token) : Option (Operator UnaryOp) := Operator.ofToken? UnaryOp.ofKind? t

def Token.binary? (t : Token) : Option (Operator BinaryOp) := Operator.ofToken? BinaryOp.ofKind? t

def Operator.unaryToken (o : Operator UnaryOp) : Token := o.toToken UnaryOp.kind

def Operator.binaryToken (o : Operator BinaryOp) : Token := o.toToken BinaryOp.kind

end ExprScript
