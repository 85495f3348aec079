import ExprScript.Proofs.Completeness
import ExprScript.Proofs.Soundness

namespace ExprScript

/-- The kinds of the tokens that an expression can start with, as far as a tree fixes only their
kind. -/
def Symbol.StartsExpression : Symbol → Prop
  | .mark k => k = .nilWord ∨ k = .trueWord ∨ k = .falseWord ∨ k = .leftParen
  | _ => True

theorem Value.symbol_startsExpression (v : Value) : v.symbol.StartsExpression := by
  match v with
  | .nil | .bool true | .bool false | .number _ | .text _ =>
    simp [Value.symbol, Symbol.StartsExpression]

theorem Expression.exists_yield_cons (e : Expression) :
    ∃ σ σs, e.yield = σ :: σs ∧ σ.StartsExpression := by
  induction e with
  | literal v => exact ⟨v.symbol, [], rfl, v.symbol_startsExpression⟩
  | group inner _ => exact ⟨_, _, rfl, by simp [Symbol.StartsExpression]⟩
  | unary op operand _ => exact ⟨_, _, rfl, trivial⟩
  | binary left op right ih _ =>
    obtain ⟨σ, σs, hy, hσ⟩ := ih
    exact ⟨σ, σs ++ .operator op.binaryToken :: right.yield, by simp [yield, hy], hσ⟩
  | «variable» name => exact ⟨_, [], rfl, trivial⟩

/-- The kinds of the marks that an expression has: those of the literals without a datum, and the
parentheses. -/
def expressionMarks : List Kind := [.nilWord, .trueWord, .falseWord, .leftParen, .rightParen]

theorem Expression.mark_of_mem_yield {e : Expression} {k : Kind} (h : .mark k ∈ e.yield) :
    k ∈ expressionMarks := by
  induction e with
  | literal v =>
    match v with
    | .nil | .bool true | .bool false =>
      obtain rfl := Symbol.mark.inj (List.mem_singleton.mp h)
      decide
    | .number _ | .text _ => cases List.mem_singleton.mp h
  | group inner ih =>
    have hparts : k = .leftParen ∨ .mark k ∈ inner.yield ∨ k = .rightParen := by
      simpa [yield] using h
    rcases hparts with rfl | h | rfl
    · decide
    · exact ih h
    · decide
  | unary op operand ih => exact ih (by simpa [yield] using h)
  | binary left op right ihl ihr =>
    have hsides : .mark k ∈ left.yield ∨ .mark k ∈ right.yield := by simpa [yield] using h
    exact hsides.elim ihl ihr
  | «variable» name => cases List.mem_singleton.mp h

theorem Expression.eof_not_mem_yield (e : Expression) : .mark .eof ∉ e.yield := by
  intro h
  exact absurd (mark_of_mem_yield h) (by decide)

namespace Statement

/-- The tokens of a statement in front of the semicolon that ends it. -/
def unended : Statement → List Symbol
  | .expression e => e.yield
  | .print e => .mark .printWord :: e.yield
  | .declare name none => [.mark .varWord, .name name]
  | .declare name (some e) => .mark .varWord :: .name name :: .mark .equal :: e.yield

theorem yield_eq (s : Statement) : s.yield = s.unended ++ [.mark .semicolon] := by
  match s with
  | .expression _ | .print _ | .declare _ none | .declare _ (some _) => rfl

/-- Behind its first token a statement has no marks but those of its expression, and the equals sign
in front of that. -/
theorem exists_unended_cons (s : Statement) :
    ∃ σ σs, s.unended = σ :: σs ∧ ∀ k, .mark k ∈ σs → k ∈ .equal :: expressionMarks := by
  have hmarks (e : Expression) {k : Kind} (h : .mark k ∈ e.yield) : k ∈ .equal :: expressionMarks :=
    List.mem_cons_of_mem _ (Expression.mark_of_mem_yield h)
  match s with
  | .expression e =>
    obtain ⟨σ, σs, hy, -⟩ := e.exists_yield_cons
    exact ⟨σ, σs, hy, fun k hk => hmarks e (by simp [hy, hk])⟩
  | .print e => exact ⟨_, _, rfl, fun k hk => hmarks e hk⟩
  | .declare name none => exact ⟨_, _, rfl, fun k hk => by simp at hk⟩
  | .declare name (some e) =>
    refine ⟨_, _, rfl, fun k hk => ?_⟩
    have hparts : k = .equal ∨ .mark k ∈ e.yield := by simpa using hk
    exact hparts.elim (fun hequal => by simp [hequal]) (hmarks e)

theorem eof_not_mem_yield (s : Statement) : .mark .eof ∉ s.yield := by
  match s with
  | .expression e | .print e | .declare _ (some e) =>
    simpa [yield] using e.eof_not_mem_yield
  | .declare _ none => simp [yield]

/-- What the rule of a statement finds wrong where the semicolon should come. -/
def unendedProblem : Statement → SyntaxProblem
  | .expression _ => .expectSemicolonAfterExpression
  | .print _ | .declare _ _ => .expectSemicolonAfterValue

theorem SpelledBy.exists_unended {s : Statement} {ts : List Token} (h : s.SpelledBy ts) :
    ∃ front u, ts = front ++ [u] ∧ front.map Token.symbol = s.unended ∧ u.kind = .semicolon := by
  have hy := h.yields
  rw [yield_eq] at hy
  obtain ⟨front, ys, rfl, hfront, hys⟩ := List.map_eq_append_iff.mp hy
  obtain ⟨u, rfl, hu⟩ := List.map_eq_singleton_iff.mp hys
  exact ⟨front, u, rfl, hfront, Token.kind_of_symbol_mark hu⟩

end Statement

theorem Token.symbol_of_eof {t : Token} (h : t.kind = .eof) : t.symbol = .mark .eof := by
  simp [symbol, h]

theorem ne_eof_of_not_mem {ts : List Token} (h : .mark .eof ∉ ts.map Token.symbol) :
    ∀ t ∈ ts, t.kind ≠ .eof := by
  intro t ht hk
  apply h
  rw [← Token.symbol_of_eof hk]
  exact List.mem_map_of_mem ht

/-- No end mark stands among the tokens of a statement. -/
theorem Statement.SpelledBy.ne_eof {s : Statement} {ts : List Token} (h : s.SpelledBy ts) :
    ∀ t ∈ ts, t.kind ≠ .eof :=
  ne_eof_of_not_mem (h.yields ▸ s.eof_not_mem_yield)

theorem Expression.SpelledBy.ne_eof {e : Expression} {rank budget : Nat} {ts : List Token}
    (h : e.SpelledBy rank budget ts) : ∀ t ∈ ts, t.kind ≠ .eof :=
  ne_eof_of_not_mem (h.yields ▸ e.eof_not_mem_yield)

namespace Grammar
open Rule

theorem semicolon_yields (problem : SyntaxProblem) :
    (semicolon problem).Yields (fun t ts => ts = [t] ∧ t.kind = .semicolon) :=
  yields_expect .semicolon problem

theorem printBody_yields {t : Token} (hk : t.kind = .printWord) :
    printBody.Yields (fun s ts => s.SpelledBy (t :: ts)) := by
  have hall := expression_yields.andThen (fun e =>
    (semicolon_yields .expectSemicolonAfterValue).map (fun _ => Statement.print e))
  apply hall.mono
  rintro s ts ⟨e, xs, ys, rfl, he, u, rfl, rfl, hu⟩
  exact ⟨by simp [Statement.yield, Token.symbol, hk, hu, he.yields],
    by rintro _ ⟨⟩; exact he.ordered, by rintro _ ⟨⟩; exact he.shallow⟩

theorem expressionStatement_yields :
    expressionStatement.Yields (fun s ts => s.SpelledBy ts) := by
  have hall := expression_yields.andThen (fun e =>
    (semicolon_yields .expectSemicolonAfterExpression).map (fun _ => Statement.expression e))
  apply hall.mono
  rintro s ts ⟨e, xs, ys, rfl, he, u, rfl, rfl, hu⟩
  exact ⟨by simp [Statement.yield, Token.symbol, hu, he.yields],
    by rintro _ ⟨⟩; exact he.ordered, by rintro _ ⟨⟩; exact he.shallow⟩

theorem declarationBody_yields {t : Token} (hk : t.kind = .varWord) :
    declarationBody.Yields (fun s ts => s.SpelledBy (t :: ts)) := by
  have hinitial (name u : Token) (hu : u.kind = .equal) := (expression_yields.andThen (fun e =>
    (semicolon_yields .expectSemicolonAfterValue).map
      (fun _ => Statement.declare name (some e)))).mono
    (Q := fun s ts => name.kind = .identifier → s.SpelledBy (t :: name :: u :: ts)) (by
      rintro s ts ⟨e, xs, ys, rfl, he, w, rfl, rfl, hw⟩ hname
      exact ⟨by simp [Statement.yield, Token.symbol, hk, hname, hu, hw, he.yields],
        by rintro _ ⟨⟩; exact he.ordered, by rintro _ ⟨⟩; exact he.shallow⟩)
  have hbare (name : Token) := ((semicolon_yields .expectSemicolonAfterValue).map
    (fun _ => Statement.declare name none)).mono
    (Q := fun s ts => name.kind = .identifier → s.SpelledBy (t :: name :: ts)) (by
      rintro s ts ⟨w, rfl, rfl, hw⟩ hname
      exact ⟨by simp [Statement.yield, Token.symbol, hk, hname, hw],
        by rintro _ ⟨⟩, by rintro _ ⟨⟩⟩)
  apply ((yields_expect .identifier .expectName).andThen
    (fun name => Yields.branch (hinitial name) (hbare name))).mono
  rintro s ts ⟨name, xs, ys, rfl, ⟨rfl, hname⟩, hbody⟩
  exact hbody hname

theorem statement_yields : statement.Yields (fun s ts => s.SpelledBy ts) :=
  Yields.branch (fun _ hk => declarationBody_yields hk)
    (Yields.branch (fun _ hk => printBody_yields hk) expressionStatement_yields)

theorem expression_run {e : Expression} {ts : List Token} (hy : ts.map Token.symbol = e.yield)
    (ho : e.RespectsPrecedence) (hn : e.nesting ≤ nestingLimit) {t : Token} {k : Kind}
    (hk : t.kind = k) (h : BinaryOp.ofKind? k = none) (rest : List Token) :
    expression.run (ts ++ t :: rest) = ⟨.ok e, t :: rest⟩ :=
  expressionWithin_run ⟨hy, ho, Nat.zero_le _, hn⟩ (stopsJoining_of_kind hk h 0 rest)

/-- An expression starts with no word that starts another statement. -/
theorem kind_ne_of_yields {e : Expression} {ts : List Token}
    (hy : ts.map Token.symbol = e.yield) :
    ∃ t us, ts = t :: us ∧ t.kind ≠ .varWord ∧ t.kind ≠ .printWord := by
  obtain ⟨σ, σs, hcons, hσ⟩ := e.exists_yield_cons
  rw [hcons] at hy
  obtain ⟨t, us, rfl, rfl, -⟩ := List.map_eq_cons_iff.mp hy
  refine ⟨t, us, rfl, ?_, ?_⟩
  all_goals
    intro hk
    simp [Token.symbol, hk, Symbol.StartsExpression] at hσ

section

variable {ts : List Token} {t : Token} (ht : BinaryOp.ofKind? t.kind = none) (rest : List Token)
include ht

theorem statement_run_expression {e : Expression} (hy : ts.map Token.symbol = e.yield)
    (ho : e.RespectsPrecedence) (hn : e.nesting ≤ nestingLimit) :
    statement.run (ts ++ t :: rest) =
      ((semicolon .expectSemicolonAfterExpression).map fun _ => .expression e).run (t :: rest) := by
  obtain ⟨u, us, rfl, hvar, hprint⟩ := kind_ne_of_yields hy
  have hread := expression_run hy ho hn rfl ht rest
  rw [List.cons_append, statement, branch_run_other hvar, plainStatement, branch_run_other hprint,
    expressionStatement, ← List.cons_append, andThen_run _ hread]

theorem statement_run_print {e : Expression}
    (hy : ts.map Token.symbol = .mark .printWord :: e.yield) (ho : e.RespectsPrecedence)
    (hn : e.nesting ≤ nestingLimit) :
    statement.run (ts ++ t :: rest) =
      ((semicolon .expectSemicolonAfterValue).map fun _ => .print e).run (t :: rest) := by
  obtain ⟨w, xs, rfl, hw, hxs⟩ := List.map_eq_cons_iff.mp hy
  have hword := Token.kind_of_symbol_mark hw
  have hread := expression_run hxs ho hn rfl ht rest
  rw [List.cons_append, statement, branch_run_other (by simp [hword]), plainStatement,
    branch_run_taken hword (by decide), printBody, andThen_run _ hread]

omit ht in
theorem statement_run_declare (hequal : t.kind ≠ .equal) {name : Token}
    (hy : ts.map Token.symbol = [.mark .varWord, .name name]) :
    statement.run (ts ++ t :: rest) =
      ((semicolon .expectSemicolonAfterValue).map fun _ => .declare name none).run (t :: rest) := by
  obtain ⟨w, us, rfl, hw, hus⟩ := List.map_eq_cons_iff.mp hy
  obtain ⟨i, rfl, hi⟩ := List.map_eq_singleton_iff.mp hus
  obtain ⟨rfl, hname⟩ := Token.eq_of_symbol_name hi
  have hword := Token.kind_of_symbol_mark hw
  rw [List.cons_append, statement, branch_run_taken hword (by decide), declarationBody,
    List.singleton_append, andThen_run _ (expect_run hname (by decide) _ _),
    branch_run_other hequal]

theorem statement_run_initialise {name : Token} {e : Expression}
    (hy : ts.map Token.symbol = .mark .varWord :: .name name :: .mark .equal :: e.yield)
    (ho : e.RespectsPrecedence) (hn : e.nesting ≤ nestingLimit) :
    statement.run (ts ++ t :: rest) =
      ((semicolon .expectSemicolonAfterValue).map fun _ => .declare name (some e)).run
        (t :: rest) := by
  obtain ⟨w, us, rfl, hw, hus⟩ := List.map_eq_cons_iff.mp hy
  obtain ⟨i, vs, rfl, hi, hvs⟩ := List.map_eq_cons_iff.mp hus
  obtain ⟨q, xs, rfl, hq, hxs⟩ := List.map_eq_cons_iff.mp hvs
  obtain ⟨rfl, hname⟩ := Token.eq_of_symbol_name hi
  have hword := Token.kind_of_symbol_mark hw
  have hequal := Token.kind_of_symbol_mark hq
  have hread := expression_run hxs ho hn rfl ht rest
  rw [List.cons_append, statement, branch_run_taken hword (by decide), declarationBody,
    List.cons_append, andThen_run _ (expect_run hname (by decide) _ _), List.cons_append,
    branch_run_taken hequal (by decide), andThen_run _ hread]

/-- Behind all tokens of a statement but its semicolon, where the next token can neither join what
is read nor start an initial value, just the semicolon is left to read. -/
theorem statement_run_unended {s : Statement} (hy : ts.map Token.symbol = s.unended)
    (ho : s.RespectsPrecedence) (hn : s.IsShallow) (hequal : t.kind ≠ .equal) :
    statement.run (ts ++ t :: rest) =
      ((semicolon s.unendedProblem).map fun _ => s).run (t :: rest) := by
  match s with
  | .expression e => exact statement_run_expression ht rest hy (ho e rfl) (hn e rfl)
  | .print e => exact statement_run_print ht rest hy (ho e rfl) (hn e rfl)
  | .declare name none => exact statement_run_declare rest hequal hy
  | .declare name (some e) => exact statement_run_initialise ht rest hy (ho e rfl) (hn e rfl)

end

/-- A statement is read back from tokens that spell it, whatever comes next. -/
theorem statement_run {s : Statement} {ts : List Token} (h : s.SpelledBy ts)
    (rest : List Token) : statement.run (ts ++ rest) = ⟨.ok s, rest⟩ := by
  obtain ⟨front, u, rfl, hfront, hu⟩ := h.exists_unended
  have hbinary : BinaryOp.ofKind? u.kind = none := by rw [hu]; rfl
  rw [List.append_assoc, List.singleton_append,
    statement_run_unended hbinary rest hfront h.ordered h.shallow (by simp [hu])]
  exact map_run _ (expect_run hu (by decide) _ _)

end Grammar

end ExprScript
