import ExprScript.Proofs.Yield

namespace ExprScript

/-- The token on another line, which depends on its own. -/
def Token.moved (f : Int → Int) (t : Token) : Token := { t with line := f t.line }

/-- The operator on another line. -/
def Operator.moved {α : Type} (f : Int → Int) (o : Operator α) : Operator α :=
  { o with line := f o.line }

/-- The symbol with its token on another line. -/
def Symbol.moved (f : Int → Int) : Symbol → Symbol
  | .operator t => .operator (t.moved f)
  | .name t => .name (t.moved f)
  | .literal k d => .literal k d
  | .mark k => .mark k

theorem Token.symbol_moved (f : Int → Int) (t : Token) :
    (t.moved f).symbol = t.symbol.moved f := by
  obtain ⟨kind, lexeme, datum, line⟩ := t
  cases kind <;> rfl

theorem Value.symbol_moved (f : Int → Int) (v : Value) : v.symbol.moved f = v.symbol := by
  match v with
  | .nil | .bool true | .bool false | .number _ | .text _ => rfl

namespace Expression

/-- The expression with its tokens on other lines. -/
def moved (f : Int → Int) : Expression → Expression
  | .literal v => .literal v
  | .group inner => .group (inner.moved f)
  | .unary op operand => .unary (op.moved f) (operand.moved f)
  | .binary left op right => .binary (left.moved f) (op.moved f) (right.moved f)
  | .variable name => .variable (name.moved f)

variable (f : Int → Int) (e : Expression)

theorem yield_moved : (e.moved f).yield = e.yield.map (Symbol.moved f) := by
  induction e with
  | literal v => simp [moved, yield, v.symbol_moved]
  | group inner ih => simp [moved, yield, ih, Symbol.moved]
  | unary op operand ih =>
    rw [moved, yield, ih, yield, List.map_cons]
    rfl
  | binary left op right ihl ihr =>
    rw [moved, yield, ihl, ihr, yield, List.map_append, List.map_cons]
    rfl
  | «variable» name => rfl

theorem strength_moved : (e.moved f).strength = e.strength := by
  cases e <;> rfl

theorem nesting_moved : (e.moved f).nesting = e.nesting := by
  induction e with
  | literal v => rfl
  | group inner ih => simp [moved, nesting, ih]
  | unary op operand ih => simp [moved, nesting, ih]
  | binary left op right ihl ihr => simp [moved, nesting, ihl, ihr]
  | «variable» name => rfl

theorem height_moved : (e.moved f).height = e.height := by
  induction e with
  | literal v => rfl
  | group inner ih => simp [moved, height, ih]
  | unary op operand ih => simp [moved, height, ih]
  | binary left op right ihl ihr => simp [moved, height, ihl, ihr]
  | «variable» name => rfl

theorem respectsPrecedence_moved : (e.moved f).RespectsPrecedence ↔ e.RespectsPrecedence := by
  induction e with
  | literal v => exact Iff.rfl
  | group inner ih => exact ih
  | unary op operand ih => simp [moved, RespectsPrecedence, ih, strength_moved]
  | binary left op right ihl ihr =>
    simp [moved, RespectsPrecedence, ihl, ihr, strength_moved, Operator.moved]
  | «variable» name => exact Iff.rfl

end Expression

/-- The statement with its tokens on other lines. -/
def Statement.moved (f : Int → Int) : Statement → Statement
  | .expression e => .expression (e.moved f)
  | .print e => .print (e.moved f)
  | .declare name initial => .declare (name.moved f) (initial.map (Expression.moved f))

theorem Statement.yield_moved (f : Int → Int) (s : Statement) :
    (s.moved f).yield = s.yield.map (Symbol.moved f) := by
  match s with
  | .expression e | .print e | .declare _ (some e) =>
    simp [moved, yield, e.yield_moved, Symbol.moved]
  | .declare _ none => rfl

theorem Statement.expression?_moved (f : Int → Int) (s : Statement) :
    (s.moved f).expression? = s.expression?.map (Expression.moved f) := by
  cases s <;> rfl

/-- Tokens that spell a statement spell it on other lines too. -/
theorem Statement.SpelledBy.moved {s : Statement} {ts : List Token} (h : s.SpelledBy ts)
    (f : Int → Int) : (s.moved f).SpelledBy (ts.map (Token.moved f)) := by
  have hexpression : ∀ e ∈ (s.moved f).expression?, ∃ d ∈ s.expression?, d.moved f = e := by
    intro e he
    rw [s.expression?_moved] at he
    exact Option.map_eq_some_iff.mp he
  refine ⟨?_, fun e he => ?_, fun e he => ?_⟩
  · rw [s.yield_moved, ← h.yields, List.map_map, List.map_map]
    exact List.map_congr_left fun t _ => t.symbol_moved f
  · obtain ⟨d, hd, rfl⟩ := hexpression e he
    exact (d.respectsPrecedence_moved f).mpr (h.ordered d hd)
  · obtain ⟨d, hd, rfl⟩ := hexpression e he
    rw [d.nesting_moved]
    exact h.shallow d hd

/-- The token apart from its line. -/
def Token.unplaced (t : Token) : Token := { t with line := 0 }

/-- The operator apart from its line. -/
def Operator.unplaced {α : Type} (o : Operator α) : Operator α := { o with line := 0 }

/-- The symbol apart from the line of its token. -/
def Symbol.unplaced : Symbol → Symbol
  | .operator t => .operator t.unplaced
  | .name t => .name t.unplaced
  | .literal k d => .literal k d
  | .mark k => .mark k

theorem Token.symbol_unplaced (t : Token) : t.unplaced.symbol = t.symbol.unplaced := by
  have hsymbol (σ : Symbol) : σ.unplaced = σ.moved fun _ => 0 := by cases σ <;> rfl
  rw [hsymbol]
  exact t.symbol_moved fun _ => 0

theorem Token.map_symbol_unplaced (ts : List Token) :
    (ts.map Token.symbol).map Symbol.unplaced = (ts.map Token.unplaced).map Token.symbol := by
  rw [List.map_map, List.map_map]
  exact List.map_congr_left fun t _ => (t.symbol_unplaced).symm

namespace Expression

/-- The expression apart from the lines of its tokens. -/
def unplaced : Expression → Expression
  | .literal v => .literal v
  | .group inner => .group inner.unplaced
  | .unary op operand => .unary op.unplaced operand.unplaced
  | .binary left op right => .binary left.unplaced op.unplaced right.unplaced
  | .variable name => .variable name.unplaced

theorem unplaced_eq (e : Expression) : e.unplaced = e.moved fun _ => 0 := by
  induction e with
  | literal v => rfl
  | group inner ih => rw [unplaced, ih, moved]
  | unary op operand ih =>
    rw [unplaced, ih, moved]
    rfl
  | binary left op right ihl ihr =>
    rw [unplaced, ihl, ihr, moved]
    rfl
  | «variable» name => rfl

theorem nesting_unplaced (e : Expression) : e.unplaced.nesting = e.nesting := by
  rw [unplaced_eq, nesting_moved]

theorem height_unplaced (e : Expression) : e.unplaced.height = e.height := by
  rw [unplaced_eq, height_moved]

theorem respectsPrecedence_unplaced (e : Expression) :
    e.unplaced.RespectsPrecedence ↔ e.RespectsPrecedence := by
  rw [unplaced_eq, respectsPrecedence_moved]

end Expression

/-- The statement apart from the lines of its tokens. -/
def Statement.unplaced : Statement → Statement
  | .expression e => .expression e.unplaced
  | .print e => .print e.unplaced
  | .declare name initial => .declare name.unplaced (initial.map Expression.unplaced)

theorem Symbol.eq_of_unplaced_mark {σ : Symbol} {k : Kind} (h : σ.unplaced = .mark k) :
    σ = .mark k := by
  cases σ <;> simp_all [unplaced]

theorem Symbol.eq_of_unplaced_literal {σ : Symbol} {k : Kind} {d : Datum}
    (h : σ.unplaced = .literal k d) : σ = .literal k d := by
  cases σ <;> simp_all [unplaced]

theorem Symbol.exists_of_unplaced_operator {σ : Symbol} {t : Token}
    (h : σ.unplaced = .operator t) : ∃ u, σ = .operator u ∧ u.unplaced = t := by
  cases σ <;> simp_all [unplaced]

theorem Symbol.exists_of_unplaced_name {σ : Symbol} {t : Token}
    (h : σ.unplaced = .name t) : ∃ u, σ = .name u ∧ u.unplaced = t := by
  cases σ <;> simp_all [unplaced]

theorem Value.eq_symbol_of_unplaced {v : Value} {σ : Symbol} (h : σ.unplaced = v.symbol) :
    σ = v.symbol := by
  match v with
  | .nil | .bool true | .bool false => exact Symbol.eq_of_unplaced_mark h
  | .number _ | .text _ => exact Symbol.eq_of_unplaced_literal h

/-- An operator on some line, when its token is only known apart from its line. -/
theorem Operator.exists_placed {α : Type} {kind : α → Kind} {o : Operator α} {t : Token}
    (h : t.unplaced = o.toToken kind) :
    ∃ p : Operator α, p.toToken kind = t ∧ p.unplaced = o := by
  obtain ⟨k, lexeme, datum, line⟩ := t
  obtain ⟨op, lexeme', datum', line'⟩ := o
  simp only [Token.unplaced, toToken, Token.mk.injEq] at h
  obtain ⟨rfl, rfl, rfl, rfl⟩ := h
  exact ⟨⟨op, lexeme, datum, line⟩, rfl, rfl⟩

/-- A tree takes over the lines of the tokens that it is spelled by. -/
theorem Expression.exists_placed {e : Expression} {σs : List Symbol}
    (h : σs.map Symbol.unplaced = e.yield) : ∃ f : Expression, f.yield = σs ∧ f.unplaced = e := by
  induction e generalizing σs with
  | literal v =>
    obtain ⟨σ, rfl, hσ⟩ := List.map_eq_singleton_iff.mp h
    exact ⟨.literal v, by rw [yield, Value.eq_symbol_of_unplaced hσ], rfl⟩
  | group inner ih =>
    obtain ⟨first, τs, rfl, hfirst, hτs⟩ := List.map_eq_cons_iff.mp h
    obtain ⟨inside, last, rfl, hinside, hlast⟩ := List.map_eq_append_iff.mp hτs
    obtain ⟨close, rfl, hclose⟩ := List.map_eq_singleton_iff.mp hlast
    obtain ⟨f, rfl, rfl⟩ := ih hinside
    obtain rfl := Symbol.eq_of_unplaced_mark hfirst
    obtain rfl := Symbol.eq_of_unplaced_mark hclose
    exact ⟨.group f, rfl, rfl⟩
  | unary op operand ih =>
    obtain ⟨first, τs, rfl, hfirst, hτs⟩ := List.map_eq_cons_iff.mp h
    obtain ⟨t, rfl, ht⟩ := Symbol.exists_of_unplaced_operator hfirst
    obtain ⟨p, rfl, rfl⟩ := Operator.exists_placed ht
    obtain ⟨f, rfl, rfl⟩ := ih hτs
    exact ⟨.unary p f, rfl, rfl⟩
  | binary left op right ihl ihr =>
    obtain ⟨before, after, rfl, hbefore, hafter⟩ := List.map_eq_append_iff.mp h
    obtain ⟨middle, τs, rfl, hmiddle, hτs⟩ := List.map_eq_cons_iff.mp hafter
    obtain ⟨t, rfl, ht⟩ := Symbol.exists_of_unplaced_operator hmiddle
    obtain ⟨p, rfl, rfl⟩ := Operator.exists_placed ht
    obtain ⟨f, rfl, rfl⟩ := ihl hbefore
    obtain ⟨g, rfl, rfl⟩ := ihr hτs
    exact ⟨.binary f p g, rfl, rfl⟩
  | «variable» name =>
    obtain ⟨σ, rfl, hσ⟩ := List.map_eq_singleton_iff.mp h
    obtain ⟨t, rfl, rfl⟩ := Symbol.exists_of_unplaced_name hσ
    exact ⟨.variable t, rfl, rfl⟩

theorem Expression.exists_placed_closed {e : Expression} {k : Kind} {σs : List Symbol}
    (h : σs.map Symbol.unplaced = e.yield ++ [.mark k]) :
    ∃ f : Expression, σs = f.yield ++ [.mark k] ∧ f.unplaced = e := by
  obtain ⟨inside, last, rfl, hinside, hlast⟩ := List.map_eq_append_iff.mp h
  obtain ⟨close, rfl, hclose⟩ := List.map_eq_singleton_iff.mp hlast
  obtain ⟨f, rfl, hf⟩ := exists_placed hinside
  obtain rfl := Symbol.eq_of_unplaced_mark hclose
  exact ⟨f, rfl, hf⟩

theorem Statement.exists_placed {s : Statement} {σs : List Symbol}
    (h : σs.map Symbol.unplaced = s.yield) : ∃ r : Statement, r.yield = σs ∧ r.unplaced = s := by
  cases s with
  | expression e =>
    obtain ⟨f, rfl, rfl⟩ := Expression.exists_placed_closed h
    exact ⟨.expression f, rfl, rfl⟩
  | print e =>
    obtain ⟨first, τs, rfl, hfirst, hτs⟩ := List.map_eq_cons_iff.mp h
    obtain ⟨f, rfl, rfl⟩ := Expression.exists_placed_closed hτs
    obtain rfl := Symbol.eq_of_unplaced_mark hfirst
    exact ⟨.print f, rfl, rfl⟩
  | declare name initial =>
    cases initial with
    | none =>
      obtain ⟨first, τs, rfl, hfirst, hτs⟩ := List.map_eq_cons_iff.mp h
      obtain ⟨second, τs, rfl, hsecond, hτs⟩ := List.map_eq_cons_iff.mp hτs
      obtain ⟨close, rfl, hclose⟩ := List.map_eq_singleton_iff.mp hτs
      obtain rfl := Symbol.eq_of_unplaced_mark hfirst
      obtain ⟨t, rfl, rfl⟩ := Symbol.exists_of_unplaced_name hsecond
      obtain rfl := Symbol.eq_of_unplaced_mark hclose
      exact ⟨.declare t none, rfl, rfl⟩
    | some e =>
      obtain ⟨first, τs, rfl, hfirst, hτs⟩ := List.map_eq_cons_iff.mp h
      obtain ⟨second, τs, rfl, hsecond, hτs⟩ := List.map_eq_cons_iff.mp hτs
      obtain ⟨third, τs, rfl, hthird, hτs⟩ := List.map_eq_cons_iff.mp hτs
      obtain ⟨f, rfl, rfl⟩ := Expression.exists_placed_closed hτs
      obtain rfl := Symbol.eq_of_unplaced_mark hfirst
      obtain ⟨t, rfl, rfl⟩ := Symbol.exists_of_unplaced_name hsecond
      obtain rfl := Symbol.eq_of_unplaced_mark hthird
      exact ⟨.declare t (some f), rfl, rfl⟩

theorem exists_placed_statements {ss : List Statement} {σs : List Symbol}
    (h : σs.map Symbol.unplaced = ss.flatMap Statement.yield) :
    ∃ rs : List Statement, rs.flatMap Statement.yield = σs ∧ rs.map Statement.unplaced = ss := by
  induction ss generalizing σs with
  | nil => exact ⟨[], (List.map_eq_nil_iff.mp h).symm, rfl⟩
  | cons s ss ih =>
    rw [List.flatMap_cons] at h
    obtain ⟨front, back, rfl, hfront, hback⟩ := List.map_eq_append_iff.mp h
    obtain ⟨r, rfl, rfl⟩ := Statement.exists_placed hfront
    obtain ⟨rs, rfl, rfl⟩ := ih hback
    exact ⟨r :: rs, rfl, rfl⟩

end ExprScript
