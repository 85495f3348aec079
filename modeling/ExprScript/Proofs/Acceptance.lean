import ExprScript.Proofs.Statements

namespace ExprScript

/-- The tokens spell the statements one after another. -/
inductive Spelled : List Statement → List Token → Prop where
  | nil : Spelled [] []
  | cons {s : Statement} {ss : List Statement} {xs ys : List Token} (first : s.SpelledBy xs)
      (others : Spelled ss ys) : Spelled (s :: ss) (xs ++ ys)

theorem spelled_iff {ss : List Statement} {ts : List Token} :
    Spelled ss ts ↔ (∀ s ∈ ss, s.RespectsPrecedence) ∧
      ss.flatMap Statement.yield = ts.map Token.symbol ∧ ∀ s ∈ ss, s.IsShallow := by
  constructor
  · intro h
    induction h with
    | nil => simp
    | cons first others ih =>
      obtain ⟨ho, hy, hn⟩ := ih
      refine ⟨List.forall_mem_cons.mpr ⟨first.ordered, ho⟩, ?_,
        List.forall_mem_cons.mpr ⟨first.shallow, hn⟩⟩
      rw [List.flatMap_cons, hy, List.map_append, first.yields]
  · rintro ⟨ho, hy, hn⟩
    induction ss generalizing ts with
    | nil =>
      rw [List.map_eq_nil_iff.mp hy.symm]
      exact .nil
    | cons s ss ih =>
      rw [List.flatMap_cons] at hy
      obtain ⟨xs, ys, rfl, hxs, hys⟩ := List.map_eq_append_iff.mp hy.symm
      obtain ⟨hos, hoss⟩ := List.forall_mem_cons.mp ho
      obtain ⟨hns, hnss⟩ := List.forall_mem_cons.mp hn
      exact .cons ⟨hxs, hos, hns⟩ (ih hoss hys.symm hnss)

theorem Spelled.ne_eof {ss : List Statement} {ts : List Token} (h : Spelled ss ts) :
    ∀ t ∈ ts, t.kind ≠ .eof := by
  induction h with
  | nil => simp
  | cons first others ih =>
    intro t ht
    rcases List.mem_append.mp ht with ht | ht
    · exact first.ne_eof t ht
    · exact ih t ht

/-- A list of tokens has one part in front of its first end mark. -/
theorem append_eof_inj {xs ys ms ns : List Token} {d e : Token}
    (hx : ∀ t ∈ xs, t.kind ≠ .eof) (hy : ∀ t ∈ ys, t.kind ≠ .eof) (hd : d.kind = .eof)
    (he : e.kind = .eof) (h : xs ++ d :: ms = ys ++ e :: ns) : xs = ys ∧ d = e ∧ ms = ns := by
  induction xs generalizing ys with
  | nil =>
    cases ys with
    | nil => exact ⟨rfl, List.cons.inj h⟩
    | cons y ys =>
      obtain ⟨rfl, -⟩ := List.cons.inj h
      exact absurd hd (hy d (by simp))
  | cons x xs ih =>
    cases ys with
    | nil =>
      obtain ⟨rfl, -⟩ := List.cons.inj h
      exact absurd he (hx x (by simp))
    | cons y ys =>
      obtain ⟨rfl, htail⟩ := List.cons.inj h
      obtain ⟨rfl, hrest⟩ := ih (fun t ht => hx t (List.mem_cons_of_mem _ ht))
        (fun t ht => hy t (List.mem_cons_of_mem _ ht)) htail
      exact ⟨rfl, hrest⟩

namespace Grammar
open Rule

theorem declaration_of_statement {ts rest : List Token} {s : Statement}
    (h : statement.run ts = ⟨.ok s, rest⟩) : declaration ts = ⟨.ok (some s), [], rest⟩ := by
  simp [declaration, h, atDepth]

/-- A declaration without an error is a statement that was read. -/
theorem statement_of_declaration {ts : List Token} {o : Option Statement}
    (hok : (declaration ts).result = .ok o) (hclean : (declaration ts).errors = []) :
    ∃ s rest, statement.run ts = ⟨.ok s, rest⟩ ∧ declaration ts = ⟨.ok (some s), [], rest⟩ := by
  unfold declaration at hok hclean
  split at hok <;> rename_i hfound
  · have hrun := eq_of_atDepth_ok hfound
    exact ⟨_, _, hrun, declaration_of_statement hrun⟩
  · rw [hfound] at hclean
    simp [recover] at hclean
  · simp at hok

theorem program_of_end {t : Token} (h : t.kind = .eof) (rest : List Token) :
    program (t :: rest) = ⟨.ok [], [], t :: rest⟩ := by
  rw [program]
  simp [h]

theorem program_of_declaration {t : Token} {ts rest : List Token} {o : Option Statement}
    {errors : List SyntaxError} (ht : t.kind ≠ .eof)
    (h : declaration (t :: ts) = ⟨.ok o, errors, rest⟩) :
    program (t :: ts) = ⟨(program rest).result.map (o.toList ++ ·),
      errors ++ (program rest).errors, (program rest).rest⟩ := by
  rw [program]
  simp only [ht, dite_false]
  split
  · rename_i why hwhy
    rw [h] at hwhy
    cases hwhy
  · rename_i o' ho
    rw [h] at ho
    cases ho
    rw [h]

/-- Tokens that spell statements are read as these statements, and reading goes on behind them. -/
theorem program_of_spelled {ss : List Statement} {ts : List Token} (h : Spelled ss ts)
    {rest : List Token} {others : List Statement} {errors : List SyntaxError} {left : List Token}
    (hrest : program rest = ⟨.ok others, errors, left⟩) :
    program (ts ++ rest) = ⟨.ok (ss ++ others), errors, left⟩ := by
  induction h with
  | nil => exact hrest
  | @cons s ss xs ys first _ ih =>
    have hrun := declaration_of_statement (statement_run first (ys ++ rest))
    have hall : ∀ t ∈ xs, t.kind ≠ .eof := first.ne_eof
    rw [List.append_assoc]
    cases xs with
    | nil =>
      have hlt := statement.length_lt (statement_run first (ys ++ rest))
      exact absurd hlt (Nat.lt_irrefl _)
    | cons x xs =>
      rw [List.cons_append] at hrun ⊢
      rw [program_of_declaration (hall x (by simp)) hrun, ih]
      rfl

theorem program_run {ss : List Statement} {ts : List Token} (h : Spelled ss ts) {e : Token}
    (he : e.kind = .eof) (more : List Token) :
    program (ts ++ e :: more) = ⟨.ok ss, [], e :: more⟩ := by
  have hall := program_of_spelled h (program_of_end he more)
  rwa [List.append_nil] at hall

/-- What is read without an error is spelled by the tokens in front of the first end mark. -/
theorem spelled_of_program {ts : List Token} (hc : ∀ t ∈ ts, t.Carries) {ss : List Statement}
    (hok : (program ts).result = .ok ss) (hclean : (program ts).errors = []) :
    ∃ front e more, ts = front ++ e :: more ∧ e.kind = .eof ∧ Spelled ss front := by
  induction hn : ts.length using Nat.strongRecOn generalizing ts ss with
  | _ n ih =>
    subst hn
    cases ts with
    | nil => simp [program] at hok
    | cons t ts =>
      by_cases ht : t.kind = .eof
      · rw [program_of_end ht] at hok
        cases hok
        exact ⟨[], t, ts, rfl, ht, .nil⟩
      · cases hdecl : (declaration (t :: ts)).result with
        | error why =>
          rw [program] at hok
          simp only [ht, dite_false] at hok
          split at hok
          · cases hok
          · rename_i o ho
            cases hdecl.symm.trans ho
        | ok o =>
          rw [program_of_declaration ht
            (show declaration (t :: ts) = ⟨.ok o, _, _⟩ by rw [← hdecl])] at hok hclean
          obtain ⟨hfirst, hothers⟩ := List.append_eq_nil_iff.mp hclean
          obtain ⟨s, rest, hrun, hd⟩ := statement_of_declaration hdecl hfirst
          rw [hd] at hok hothers hdecl
          cases hdecl
          obtain ⟨xs, hsplit, hxs⟩ := statement_yields hrun
          rw [hsplit] at hc ⊢
          have hspelled := hxs fun t ht => hc t (List.mem_append_left _ ht)
          cases hrest : (program rest).result with
          | error why => simp [hrest, Except.map] at hok
          | ok others =>
            simp only [hrest, Except.map, Except.ok.injEq] at hok
            subst hok
            obtain ⟨front, e, more, rfl, he, hall⟩ := ih rest.length
              (statement.length_lt hrun) (fun t ht => hc t (List.mem_append_right _ ht))
              hrest hothers rfl
            exact ⟨xs ++ front, e, more, by simp, he, .cons hspelled hall⟩

theorem wholeExpression_run {e : Expression} {ts : List Token}
    (hy : ts.map Token.symbol = e.yield) (ho : e.RespectsPrecedence)
    (hn : e.nesting ≤ nestingLimit) {t : Token} (ht : t.kind = .eof) (rest : List Token) :
    wholeExpression (ts ++ t :: rest) = ⟨.ok e, t :: rest⟩ := by
  simp [wholeExpression, expression_run hy ho hn ht rfl, atDepth, ht]

theorem spelled_of_wholeExpression {ts : List Token} (hc : ∀ t ∈ ts, t.Carries)
    {e : Expression} (hok : (wholeExpression ts).result = .ok e) :
    ∃ front t rest, ts = front ++ t :: rest ∧ t.kind = .eof ∧
      e.SpelledBy 0 nestingLimit front := by
  unfold wholeExpression at hok
  split at hok <;> rename_i hfound
  · cases hok
  · cases hok
  · rename_i t rest
    split at hok
    · rename_i ht
      cases hok
      obtain ⟨front, rfl, hfront⟩ := expression_yields (eq_of_atDepth_ok hfound)
      exact ⟨front, t, rest, rfl, ht, hfront fun t ht => hc t (List.mem_append_left _ ht)⟩
    · cases hok

/-- The grammar and its trees: reading the tokens in front of an end mark gives statements without
an error exactly when they respect the precedence of the operators, have these tokens from left to
right and do not nest too deep. The same holds of a single expression. -/
theorem program_ok_iff {ts : List Token} {e : Token} (hts : ∀ t ∈ ts, t.kind ≠ .eof)
    (hc : ∀ t ∈ ts, t.Carries) (he : e.kind = .eof) :
    (∀ ss : List Statement,
      (program (ts ++ [e])).result = .ok ss ∧ (program (ts ++ [e])).errors = [] ↔
        (∀ s ∈ ss, s.RespectsPrecedence) ∧
          ss.flatMap Statement.yield = ts.map Token.symbol ∧ ∀ s ∈ ss, s.IsShallow) ∧
    (∀ x : Expression, (wholeExpression (ts ++ [e])).result = .ok x ↔
      x.RespectsPrecedence ∧ x.yield = ts.map Token.symbol ∧ x.nesting ≤ nestingLimit) := by
  have hall : ∀ t ∈ ts ++ [e], t.Carries := by
    intro t ht
    rcases List.mem_append.mp ht with ht | ht
    · exact hc t ht
    · obtain rfl := List.mem_singleton.mp ht
      simp [Token.Carries, he]
  refine ⟨fun ss => ?_, fun x => ?_⟩
  · rw [← spelled_iff]
    constructor
    · rintro ⟨hok, hclean⟩
      obtain ⟨front, d, more, hsplit, hd, hs⟩ := spelled_of_program hall hok hclean
      obtain ⟨rfl, -⟩ := append_eof_inj hts hs.ne_eof he hd hsplit
      exact hs
    · intro h
      simp [program_run h he []]
  · constructor
    · intro hok
      obtain ⟨front, d, more, hsplit, hd, hs⟩ := spelled_of_wholeExpression hall hok
      obtain ⟨rfl, -⟩ := append_eof_inj hts hs.ne_eof he hd hsplit
      exact ⟨hs.ordered, hs.yields.symm, hs.shallow⟩
    · rintro ⟨ho, hy, hn⟩
      simp [wholeExpression_run hy.symm ho hn he []]

/-- The difference of three variables groups from the left. -/
theorem program_ok_difference :
    let name (x : String) : Token := ⟨.identifier, x, .nil, 1⟩
    let minus : Operator BinaryOp := ⟨.subtract, "-", .nil, 1⟩
    let ts := [name "a", minus.binaryToken, name "b", minus.binaryToken, name "c",
      ⟨.semicolon, ";", .nil, 1⟩]
    (program (ts ++ [.ending 1])).result = .ok [.expression (.binary (.binary (.variable (name "a"))
      minus (.variable (name "b"))) minus (.variable (name "c")))] ∧
      (program (ts ++ [.ending 1])).errors = [] := by
  intro name minus ts
  have h := @program_ok_iff ts (.ending 1) (by decide)
    (by simp [ts, name, minus, Token.Carries, Operator.binaryToken, Operator.toToken,
      BinaryOp.kind]) rfl
  refine (h.1 _).mpr ⟨?_, rfl, ?_⟩
  · simp [Statement.RespectsPrecedence, Statement.expression?, Expression.RespectsPrecedence,
      Expression.strength, minus, Level.rank, BinaryOp.level]
  · simp [Statement.IsShallow, Statement.expression?, Expression.nesting, name]

end Grammar

end ExprScript
