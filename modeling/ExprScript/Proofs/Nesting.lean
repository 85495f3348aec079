import ExprScript.Proofs.Acceptance
import ExprScript.Proofs.EarliestError

namespace ExprScript

namespace Expression

variable {e : Expression}

theorem value_of_mem_yield {k : Kind} {datum : Datum} (h : .literal k datum ∈ e.yield) :
    ∃ v : Value, v.symbol = .literal k datum := by
  induction e with
  | literal v => exact ⟨v, (List.mem_singleton.mp h).symm⟩
  | group inner ih => exact ih (by simpa [yield] using h)
  | unary op operand ih => exact ih (by simpa [yield] using h)
  | binary left op right ihl ihr =>
    have hsides : .literal k datum ∈ left.yield ∨ .literal k datum ∈ right.yield := by
      simpa [yield] using h
    exact hsides.elim ihl ihr
  | «variable» name => cases List.mem_singleton.mp h

/-- The literals of a tree are values, so the tokens of the tree carry such. -/
theorem carries_of_mem_yield {t : Token} (h : t.symbol ∈ e.yield) : t.Carries := by
  constructor
  · intro hk
    have hsymbol : t.symbol = .literal .number t.datum := by simp [Token.symbol, hk]
    obtain ⟨v, hv⟩ := value_of_mem_yield (hsymbol ▸ h)
    cases v with
    | number x => exact ⟨x, (Symbol.literal.inj hv).2.symm⟩
    | bool b => cases b <;> cases hv
    | _ => cases hv
  · intro hk
    have hsymbol : t.symbol = .literal .string t.datum := by simp [Token.symbol, hk]
    obtain ⟨v, hv⟩ := value_of_mem_yield (hsymbol ▸ h)
    cases v with
    | text s => exact ⟨s, (Symbol.literal.inj hv).2.symm⟩
    | bool b => cases b <;> cases hv
    | _ => cases hv

end Expression

namespace Grammar
open Rule

/-- Where the tokens lead through to the last one, none of them is blocked. -/
theorem Route.not_blocked {p q : Place} {ts rest : List Token} {t : Token}
    (h : Route p ts q []) : ¬ Blocked p ts rest t := by
  rintro ⟨s, hroute, hhead, hstuck⟩
  induction hroute with
  | here p ts =>
    cases h with
    | here => cases hhead
    | step taken onward =>
      obtain rfl := Option.some.inj hhead
      cases hstuck.symm.trans taken
  | step taken _ ih =>
    cases h with
    | step taken' onward =>
      obtain rfl := Option.some.inj (taken.symm.trans taken')
      exact ih onward hhead hstuck

section

variable {e : Expression} {ts : List Token} (hy : ts.map Token.symbol = e.yield)
  (ho : e.RespectsPrecedence) {d : Token} (hd : d.kind = .eof)
include hy ho hd

theorem expressionWithin_nesting_run :
    (expressionWithin e.nesting).run (ts ++ [d]) = ⟨.ok e, [d]⟩ :=
  expressionWithin_run ⟨hy, ho, Nat.zero_le _, Nat.le_refl _⟩ (stopsJoining_of_kind hd rfl 0 [])

/-- The tokens of a tree lead through an expression, however deep it nests. -/
theorem route_of_yield : Route (.operand .eof 0) (ts ++ [d]) .finished [] := by
  have hwalks := joined_walks (unary_walks e.nesting .eof 0) .equality (ts ++ [d])
  change ((expressionWithin e.nesting).run (ts ++ [d])).Walks _ _ _ at hwalks
  rw [expressionWithin_nesting_run hy ho hd] at hwalks
  exact hwalks.trans (.one (by rw [hd]; rfl))

/-- A tree that nests too deep is not read from its tokens, and that is what the error is about. -/
theorem wholeExpression_tooDeep (hn : nestingLimit < e.nesting) :
    ∃ t rest, wholeExpression (ts ++ [d]) = ⟨.error (.violation ⟨t, .tooDeep⟩), t :: rest⟩ := by
  have hc : ∀ t ∈ ts, t.Carries := by
    intro t ht
    refine Expression.carries_of_mem_yield (e := e) ?_
    rw [← hy]
    exact List.mem_map_of_mem ht
  have hended : Ended (ts ++ [d]) := ended_of_front (.inr hd) hc
  have hleaves := expression_keeps hended
  have hwalks := joined_walks (unary_walks nestingLimit .eof 0) .equality (ts ++ [d])
  change (expression.run (ts ++ [d])).Walks _ _ _ at hwalks
  cases hrun : expression.run (ts ++ [d]) with
  | mk result left =>
    rw [hrun] at hleaves hwalks
    cases result with
    | ok f =>
      -- What was read is also read with the nesting of the tree left, which reads the tree.
      obtain ⟨front, hsplit, hfront⟩ := expression_yields hrun
      have hspelled := hfront fun t ht => hended.carries t (hsplit ▸ List.mem_append_left _ ht)
      have hstops := joined_exhausts (unary nestingLimit) hrun hleaves
      have hread := expressionWithin_run
        ⟨hspelled.yields, hspelled.ordered, Nat.zero_le _, hspelled.shallow.trans hn.le⟩ hstops
      rw [← hsplit, expressionWithin_nesting_run hy ho hd] at hread
      cases hread
      exact absurd hspelled.shallow hn.not_ge
    | error why =>
      obtain ⟨hne, hblame⟩ := hleaves
      obtain ⟨t, rest, rfl⟩ := List.exists_cons_of_ne_nil hne
      cases why with
      | violation err => exact absurd hwalks (route_of_yield hy ho hd).not_blocked
      | tooDeep => exact ⟨t, rest, by simp [wholeExpression, hrun, atDepth]⟩
      | outOfTokens => exact hblame.elim
      | badLiteral why => exact hblame.elim

end

end Grammar

end ExprScript
