import ExprScript.Proofs.Soundness

namespace ExprScript

/-- There is a next token, and it is no binary operator of the rank or a higher one. -/
def StopsJoining (rank : Nat) : List Token → Prop
  | [] => False
  | t :: _ => ∀ op, t.binary? = some op → op.op.level.rank < rank

theorem StopsJoining.mono {r r' : Nat} {rest : List Token} (h : StopsJoining r rest)
    (hr : r ≤ r') : StopsJoining r' rest := by
  cases rest with
  | nil => exact h
  | cons t ts => exact fun op hop => Nat.lt_of_lt_of_le (h op hop) hr

theorem stopsJoining_of_kind {t : Token} {k : Kind} (hk : t.kind = k)
    (h : BinaryOp.ofKind? k = none) (rank : Nat) (rest : List Token) :
    StopsJoining rank (t :: rest) := by
  intro op hop
  simp [Token.binary?, Operator.ofToken?, hk, h] at hop

theorem Level.rank_injective {l l' : Level} (h : l.rank = l'.rank) : l = l' := by
  cases l <;> cases l' <;> simp [rank] at h <;> rfl

theorem Level.rank_lt (l : Level) : l.rank < 4 := by
  cases l <;> decide

theorem Level.exists_rank {r : Nat} (h : r < 4) : ∃ l : Level, l.rank = r := by
  match r, h with
  | 0, _ => exact ⟨.equality, rfl⟩
  | 1, _ => exact ⟨.comparison, rfl⟩
  | 2, _ => exact ⟨.term, rfl⟩
  | 3, _ => exact ⟨.factor, rfl⟩

namespace Rule

section
variable {α β : Type} {ts rest : List Token}

theorem map_run {r : Rule α} {a : α} (f : α → β) (h : r.run ts = ⟨.ok a, rest⟩) :
    (r.map f).run ts = ⟨.ok (f a), rest⟩ := by
  simp [Rule.map, h, Reply.map, Except.map]

theorem andThen_run {r : Rule α} {a : α} (next : α → Rule β) (h : r.run ts = ⟨.ok a, rest⟩) :
    (r.andThen next).run ts = (next a).run rest := by
  simp [andThen, h]

theorem isA_eq_true {t : Token} {k : Kind} (hk : t.kind = k) (h : k ≠ .eof) :
    t.isA k = true := by
  simp [Token.isA, hk, h]

theorem isA_eq_false {t : Token} {k : Kind} (hk : t.kind ≠ k) : t.isA k = false := by
  simp [Token.isA, hk]

theorem expect_run {t : Token} {k : Kind} (hk : t.kind = k) (h : k ≠ .eof)
    (problem : SyntaxProblem) (ts : List Token) :
    (expect k problem).run (t :: ts) = ⟨.ok t, ts⟩ := by
  simp [expect, onToken, isA_eq_true hk h]

theorem branch_run_taken {t : Token} {k : Kind} (hk : t.kind = k) (h : k ≠ .eof)
    (taken other : Rule α) (ts : List Token) :
    (branch k taken other).run (t :: ts) = taken.run ts := by
  simp [branch, isA_eq_true hk h]

theorem branch_run_other {t : Token} {k : Kind} (hk : t.kind ≠ k)
    (taken other : Rule α) (ts : List Token) :
    (branch k taken other).run (t :: ts) = other.run (t :: ts) := by
  simp [branch, isA_eq_false hk]

end

section
variable {unit : Rule Expression} {ts rest : List Token} {e : Expression}

/-- The rule for operands joined by operators of a rank or higher ones. Past the ranks of the
operators it is the rule for the operands. -/
def atRank (unit : Rule Expression) : Nat → Rule Expression
  | 0 => joined unit .equality
  | 1 => joined unit .comparison
  | 2 => joined unit .term
  | 3 => joined unit .factor
  | _ + 4 => unit

theorem atRank_eq_chain (unit : Rule Expression) (level : Level) :
    unit.atRank level.rank = chain level (unit.atRank (level.rank + 1)) := by
  cases level <;> rfl

theorem chainFrom_of_stops {level : Level} (operand : Rule Expression) (e : Expression)
    (h : StopsJoining level.rank rest) :
    chainFrom level operand e rest = ⟨.ok e, rest⟩ := by
  cases rest with
  | nil => exact h.elim
  | cons t ts =>
    have hnone : t.binaryAt? level = none := by
      rw [Token.binaryAt?, Option.filter_eq_none_iff]
      intro op hop
      have hlt := h op hop
      simp only [decide_eq_true_eq]
      rintro rfl
      exact Nat.lt_irrefl _ hlt
    rw [chainFrom]
    simp only [hnone]

theorem chainFrom_of_operator {level : Level} {operand : Rule Expression} {t : Token}
    {op : Operator BinaryOp} {right : Expression} (left : Expression)
    (hop : t.binaryAt? level = some op) (h : operand.run ts = ⟨.ok right, rest⟩) :
    chainFrom level operand left (t :: ts) =
      chainFrom level operand (.binary left op right) rest := by
  rw [chainFrom]
  simp only [hop]
  split
  · rename_i hfound
    cases h.symm.trans hfound
  · rename_i hfound
    cases h.symm.trans hfound
    rfl

theorem atRank_run_of_next {level : Level}
    (h : (unit.atRank (level.rank + 1)).run ts = ⟨.ok e, rest⟩) :
    (unit.atRank level.rank).run ts = chainFrom level (unit.atRank (level.rank + 1)) e rest := by
  rw [atRank_eq_chain]
  simp only [chain, h]

/-- An expression read at a rank is read at every lower one, where no operator follows. -/
theorem atRank_run_of_higher {r r' : Nat} (hr : r ≤ r') (hmax : r' ≤ 4)
    (h : (unit.atRank r').run ts = ⟨.ok e, rest⟩) (hs : StopsJoining r rest) :
    (unit.atRank r).run ts = ⟨.ok e, rest⟩ := by
  obtain ⟨d, rfl⟩ := Nat.exists_eq_add_of_le hr
  clear hr
  induction d generalizing r with
  | zero => exact h
  | succ d ih =>
    obtain ⟨level, rfl⟩ := Level.exists_rank (r := r) (by omega)
    rw [Nat.add_comm d, ← Nat.add_assoc] at h hmax
    rw [atRank_run_of_next (ih (hs.mono (Nat.le_succ _)) hmax h)]
    exact chainFrom_of_stops _ _ hs

end

end Rule

namespace Grammar
open Rule

theorem unary_run_operator {op : Operator UnaryOp} {budget : Nat} (hb : 1 ≤ budget)
    (ts : List Token) :
    (unary budget).run (op.unaryToken :: ts) =
      ((unary (budget - 1)).run ts).map (Expression.unary op) := by
  rw [unary_eq]
  simp only [onToken, unaryStep, Token.unary?_unaryToken, hb, if_true]
  rfl

theorem unary_run_group {t : Token} {budget : Nat} (hk : t.kind = .leftParen)
    (hb : groupCost ≤ budget) (ts : List Token) :
    (unary budget).run (t :: ts) =
      (groupOf ((unary (budget - groupCost)).joined .equality)).run ts := by
  rw [unary_eq]
  simp [onToken, unaryStep, Token.unary?, Operator.ofToken?, UnaryOp.ofKind?, primaryStep, hk, hb]

theorem unary_run_literal {t : Token} {v : Value} (h : t.symbol = v.symbol) (budget : Nat)
    (ts : List Token) : (unary budget).run (t :: ts) = ⟨.ok (.literal v), ts⟩ := by
  rw [unary_eq]
  cases v with
  | nil =>
    have hk := Token.kind_of_symbol_mark h
    simp [onToken, unaryStep, Token.unary?, Operator.ofToken?, UnaryOp.ofKind?, primaryStep, hk]
  | bool b =>
    cases b with
    | true =>
      have hk := Token.kind_of_symbol_mark h
      simp [onToken, unaryStep, Token.unary?, Operator.ofToken?, UnaryOp.ofKind?, primaryStep, hk]
    | false =>
      have hk := Token.kind_of_symbol_mark h
      simp [onToken, unaryStep, Token.unary?, Operator.ofToken?, UnaryOp.ofKind?, primaryStep, hk]
  | number x =>
    obtain ⟨hk, hd⟩ := Token.of_symbol_literal h
    simp [onToken, unaryStep, Token.unary?, Operator.ofToken?, UnaryOp.ofKind?, primaryStep,
      literalOf, Datum.value?, hk, hd]
  | text s =>
    obtain ⟨hk, hd⟩ := Token.of_symbol_literal h
    simp [onToken, unaryStep, Token.unary?, Operator.ofToken?, UnaryOp.ofKind?, primaryStep,
      literalOf, Datum.value?, hk, hd]

theorem unary_run_variable {t : Token} (hk : t.kind = .identifier) (budget : Nat)
    (ts : List Token) : (unary budget).run (t :: ts) = ⟨.ok (.variable t), ts⟩ := by
  rw [unary_eq]
  simp [onToken, unaryStep, Token.unary?, Operator.ofToken?, UnaryOp.ofKind?, primaryStep, hk]

/-- Tokens that spell the expression are read as it, whatever comes next. When operators may follow
on the level of the expression, it becomes the left operand of what they join. -/
structure ReadBack (e : Expression) : Prop where
  unjoined : ∀ {budget : Nat} {ts : List Token}, e.SpelledBy 4 budget ts →
    ∀ rest, (unary budget).run (ts ++ rest) = ⟨.ok e, rest⟩
  chained : ∀ {level : Level} {budget : Nat} {ts : List Token},
    e.SpelledBy level.rank budget ts → ∀ {rest}, StopsJoining (level.rank + 1) rest →
    ((unary budget).atRank level.rank).run (ts ++ rest) =
      chainFrom level ((unary budget).atRank (level.rank + 1)) e rest

theorem ReadBack.run {e : Expression} (h : ReadBack e) {r budget : Nat} {ts rest : List Token}
    (hr : r ≤ 4) (hspelled : e.SpelledBy r budget ts) (hs : StopsJoining r rest) :
    ((unary budget).atRank r).run (ts ++ rest) = ⟨.ok e, rest⟩ := by
  rcases Nat.lt_or_eq_of_le hr with hlt | rfl
  · obtain ⟨level, rfl⟩ := Level.exists_rank hlt
    rw [h.chained hspelled (hs.mono (Nat.le_succ _))]
    exact chainFrom_of_stops _ _ hs
  · exact h.unjoined hspelled rest

theorem ReadBack.of_unjoined {e : Expression} (hstrong : 4 ≤ e.strength)
    (h : ∀ {budget : Nat} {ts : List Token}, e.SpelledBy 4 budget ts →
      ∀ rest, (unary budget).run (ts ++ rest) = ⟨.ok e, rest⟩) : ReadBack e := by
  refine ⟨h, ?_⟩
  intro level budget ts hspelled rest hs
  have hread := h ⟨hspelled.yields, hspelled.ordered, hstrong, hspelled.shallow⟩ rest
  exact atRank_run_of_next (atRank_run_of_higher level.rank_lt (Nat.le_refl 4) hread hs)

theorem readBack_literal (v : Value) : ReadBack (.literal v) := by
  apply ReadBack.of_unjoined (by simp [Expression.strength])
  intro budget ts h rest
  obtain ⟨t, rfl, ht⟩ := List.map_eq_singleton_iff.mp h.yields
  exact unary_run_literal ht budget rest

theorem readBack_variable (name : Token) : ReadBack (.variable name) := by
  apply ReadBack.of_unjoined (by simp [Expression.strength])
  intro budget ts h rest
  obtain ⟨t, rfl, ht⟩ := List.map_eq_singleton_iff.mp h.yields
  obtain ⟨rfl, hk⟩ := Token.eq_of_symbol_name ht
  exact unary_run_variable hk budget rest

theorem readBack_unary {e : Expression} (he : ReadBack e) (op : Operator UnaryOp) :
    ReadBack (.unary op e) := by
  apply ReadBack.of_unjoined (by simp [Expression.strength])
  intro budget ts h rest
  obtain ⟨t, ts, rfl, ht, hts⟩ := List.map_eq_cons_iff.mp h.yields
  obtain rfl := Token.eq_of_symbol_operator ht
  have hb : e.nesting + 1 ≤ budget := h.shallow
  rw [List.cons_append, unary_run_operator (by omega),
    he.unjoined ⟨hts, h.ordered.1, h.ordered.2, by omega⟩ rest]
  rfl

theorem readBack_group {e : Expression} (he : ReadBack e) : ReadBack (.group e) := by
  apply ReadBack.of_unjoined (by simp [Expression.strength])
  intro budget ts h rest
  obtain ⟨t, ts, rfl, ht, hts⟩ := List.map_eq_cons_iff.mp h.yields
  obtain ⟨xs, ys, rfl, hxs, hys⟩ := List.map_eq_append_iff.mp hts
  obtain ⟨u, rfl, hu⟩ := List.map_eq_singleton_iff.mp hys
  have hopen := Token.kind_of_symbol_mark ht
  have hclose := Token.kind_of_symbol_mark hu
  have hb : e.nesting + groupCost ≤ budget := h.shallow
  have hinner : ((unary (budget - groupCost)).atRank 0).run (xs ++ u :: rest) =
      ⟨.ok e, u :: rest⟩ :=
    he.run (Nat.zero_le 4) ⟨hxs, h.ordered, Nat.zero_le _, by omega⟩
      (stopsJoining_of_kind hclose rfl 0 rest)
  rw [List.cons_append, unary_run_group hopen (by omega), List.append_assoc, List.singleton_append]
  change ((unary (budget - groupCost)).joined .equality).run (xs ++ u :: rest) = _ at hinner
  rw [groupOf, andThen_run _ hinner]
  exact map_run _ (expect_run hclose (by decide) _ _)

theorem readBack_binary {left right : Expression} (hl : ReadBack left) (hr : ReadBack right)
    (op : Operator BinaryOp) : ReadBack (.binary left op right) := by
  have hlt := op.op.level.rank_lt
  -- On the level of the operator itself the left operand starts a chain that the right one joins.
  have hown : ∀ {budget : Nat} {ts : List Token},
      (Expression.binary left op right).SpelledBy op.op.level.rank budget ts →
      ∀ {rest}, StopsJoining (op.op.level.rank + 1) rest →
      ((Grammar.unary budget).atRank op.op.level.rank).run (ts ++ rest) =
        chainFrom op.op.level ((Grammar.unary budget).atRank (op.op.level.rank + 1))
          (.binary left op right) rest := by
    intro budget ts h rest hs
    obtain ⟨xs, ys, rfl, hxs, hys⟩ := List.map_eq_append_iff.mp h.yields
    obtain ⟨t, zs, rfl, ht, hzs⟩ := List.map_eq_cons_iff.mp hys
    obtain rfl := Token.eq_of_symbol_operator ht
    obtain ⟨hol, hor, hsl, hsr⟩ := h.ordered
    have hshallow := Nat.max_le.mp h.shallow
    have hstops : StopsJoining (op.op.level.rank + 1) (op.binaryToken :: (zs ++ rest)) := by
      intro op' hop'
      rw [Token.binary?_binaryToken, Option.some.injEq] at hop'
      exact hop' ▸ Nat.lt_succ_self _
    have hright := hr.run (r := op.op.level.rank + 1) (by omega) ⟨hzs, hor, hsr, hshallow.2⟩ hs
    have hat : op.binaryToken.binaryAt? op.op.level = some op := by
      simp [Token.binaryAt?]
    rw [List.append_assoc, List.cons_append, hl.chained ⟨hxs, hol, hsl, hshallow.1⟩ hstops]
    exact chainFrom_of_operator left hat hright
  refine ⟨fun h => absurd h.strong (by simp only [Expression.strength]; omega), ?_⟩
  intro level budget ts h rest hs
  have hspelled : (Expression.binary left op right).SpelledBy op.op.level.rank budget ts :=
    ⟨h.yields, h.ordered, Nat.le_refl _, h.shallow⟩
  rcases Nat.lt_or_eq_of_le h.strong with hlower | hsame
  · change level.rank < op.op.level.rank at hlower
    apply atRank_run_of_next
    apply atRank_run_of_higher hlower (Nat.le_of_lt hlt) _ hs
    rw [hown hspelled (hs.mono (by omega))]
    exact chainFrom_of_stops _ _ (hs.mono hlower)
  · change level.rank = op.op.level.rank at hsame
    obtain rfl := Level.rank_injective hsame
    exact hown h hs

/-- Every expression is read back from tokens that spell it. -/
theorem readBack (e : Expression) : ReadBack e := by
  induction e with
  | literal v => exact readBack_literal v
  | group inner ih => exact readBack_group ih
  | unary op operand ih => exact readBack_unary ih op
  | binary left op right ihl ihr => exact readBack_binary ihl ihr op
  | «variable» name => exact readBack_variable name

theorem expressionWithin_run {e : Expression} {budget : Nat} {ts rest : List Token}
    (h : e.SpelledBy 0 budget ts) (hs : StopsJoining 0 rest) :
    (expressionWithin budget).run (ts ++ rest) = ⟨.ok e, rest⟩ :=
  (readBack e).run (Nat.zero_le 4) h hs

end Grammar

end ExprScript
