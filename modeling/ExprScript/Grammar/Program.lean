import ExprScript.Grammar.Ladder

namespace ExprScript

namespace Grammar

def semicolon (problem : SyntaxProblem) : Rule Token := Rule.expect .semicolon problem

def declarationBody : Rule Statement :=
  (Rule.expect .identifier .expectName).andThen fun name =>
    Rule.branch .equal
      (expression.andThen fun e =>
        (semicolon .expectSemicolonAfterValue).map fun _ => .declare name (some e))
      ((semicolon .expectSemicolonAfterValue).map fun _ => .declare name none)

def printBody : Rule Statement :=
  expression.andThen fun e => (semicolon .expectSemicolonAfterValue).map fun _ => .print e

def expressionStatement : Rule Statement :=
  expression.andThen fun e => (semicolon .expectSemicolonAfterExpression).map fun _ => .expression e

def plainStatement : Rule Statement := Rule.branch .printWord printBody expressionStatement

def statement : Rule Statement := Rule.branch .varWord declarationBody plainStatement

/-- The kinds of the words in front of which reading resumes after an error. -/
def startsStatement : Kind → Bool
  | .classWord | .funWord | .varWord | .forWord | .ifWord | .whileWord | .printWord
  | .returnWord => true
  | _ => false

/-- Drops tokens up to the next place where a statement may start. The token before the list is
known. -/
def seekBoundary (previous : Token) : List Token → Reply Unit
  | [] => ⟨.error .outOfTokens, []⟩
  | t :: ts =>
    if t.kind = .eof ∨ previous.kind = .semicolon ∨ startsStatement t.kind then ⟨.ok (), t :: ts⟩
    else seekBoundary t ts

/-- Drops a token and then all others up to a boundary between statements: the place after a
semicolon, in front of a word that starts a statement, or at the end. -/
def synchronize : List Token → Reply Unit
  | [] => ⟨.error .outOfTokens, []⟩
  | t :: ts => if t.kind = .eof then ⟨.ok (), t :: ts⟩ else seekBoundary t ts

/-- The outcome of reading with recovery: the errors recorded stand beside the result. -/
structure Recovered (α : Type) where
  result : Except Failure α
  errors : List SyntaxError
  rest : List Token

/-- Records an error and goes on to the next boundary, with no statement read. -/
def recover (e : SyntaxError) (ts : List Token) : Recovered (Option Statement) :=
  let resumed := synchronize ts
  ⟨resumed.result.map fun _ => none, [e], resumed.rest⟩

def declaration (ts : List Token) : Recovered (Option Statement) :=
  match atDepth (statement.run ts) with
  | ⟨.ok s, rest⟩ => ⟨.ok (some s), [], rest⟩
  | ⟨.error (.violation e), rest⟩ => recover e rest
  | ⟨.error why, rest⟩ => ⟨.error why, [], rest⟩

theorem atDepth_rest {α : Type} (r : Reply α) : (atDepth r).rest = r.rest := by
  unfold atDepth
  split <;> rfl

theorem eq_of_atDepth_ok {α : Type} {r : Reply α} {a : α} {rest : List Token}
    (done : atDepth r = ⟨.ok a, rest⟩) : r = ⟨.ok a, rest⟩ := by
  unfold atDepth at done
  split at done <;> simp_all

theorem seekBoundary_rest_suffix (previous : Token) (ts : List Token) :
    (seekBoundary previous ts).rest <:+ ts := by
  fun_induction seekBoundary previous ts with
  | case1 => exact List.suffix_refl []
  | case2 => exact List.suffix_refl _
  | case3 previous t ts _ ih => exact ih.trans (List.suffix_cons t ts)

/-- Recovery drops at least one token unless it starts at the end. -/
theorem synchronize_rest_lt {t : Token} (ts : List Token) (inside : t.kind ≠ .eof) :
    (synchronize (t :: ts)).rest.length < (t :: ts).length := by
  rw [synchronize, if_neg inside]
  exact Nat.lt_succ_of_le (seekBoundary_rest_suffix t ts).length_le

theorem synchronize_rest_suffix (ts : List Token) : (synchronize ts).rest <:+ ts := by
  cases ts with
  | nil => exact List.suffix_refl []
  | cons t ts =>
    rw [synchronize]
    split
    · exact List.suffix_refl _
    · exact (seekBoundary_rest_suffix t ts).trans (List.suffix_cons t ts)

/-- A declaration that does not start at the end takes at least one token, whether it yields a
statement or an error. -/
theorem declaration_rest_lt {t : Token} (ts : List Token) (inside : t.kind ≠ .eof)
    {s : Option Statement} (done : (declaration (t :: ts)).result = .ok s) :
    (declaration (t :: ts)).rest.length < (t :: ts).length := by
  have left : (atDepth (statement.run (t :: ts))).rest <:+ t :: ts := by
    rw [atDepth_rest]
    exact statement.rest_suffix _
  unfold declaration at done ⊢
  split
  · rename_i s' rest found
    exact statement.length_lt (eq_of_atDepth_ok found)
  · rename_i e rest found
    rw [found] at left
    change rest <:+ t :: ts at left
    change (synchronize rest).rest.length < _
    by_cases same : rest.length = (t :: ts).length
    · rw [left.eq_of_length same]
      exact synchronize_rest_lt ts inside
    · exact Nat.lt_of_le_of_lt (synchronize_rest_suffix rest).length_le
        (Nat.lt_of_le_of_ne left.length_le same)
  · simp_all

/-- All statements up to the end. A statement with an error is left out. -/
def program (ts : List Token) : Recovered (List Statement) :=
  match ts with
  | [] => ⟨.error .outOfTokens, [], []⟩
  | t :: rest =>
    if _inside : t.kind = .eof then ⟨.ok [], [], t :: rest⟩
    else
      let first := declaration (t :: rest)
      match _done : first.result with
      | .error why => ⟨.error why, first.errors, first.rest⟩
      | .ok s =>
        let others := program first.rest
        ⟨others.result.map (s.toList ++ ·), first.errors ++ others.errors, others.rest⟩
termination_by ts.length
decreasing_by exact declaration_rest_lt rest _inside _done

end Grammar

end ExprScript
