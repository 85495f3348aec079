import ExprScript.Proofs.Yield

namespace ExprScript

namespace Rule

variable {α β : Type}

/-- Whenever the rule succeeds, the result and the tokens it took are related. The relation may
rely on the literals of these tokens. -/
def Yields (r : Rule α) (P : α → List Token → Prop) : Prop :=
  ∀ ⦃ts a rest⦄, r.run ts = ⟨.ok a, rest⟩ →
    ∃ front, ts = front ++ rest ∧ ((∀ t ∈ front, t.Carries) → P a front)

theorem Yields.mono {r : Rule α} {P Q : α → List Token → Prop} (h : r.Yields P)
    (hpq : ∀ a ts, P a ts → Q a ts) : r.Yields Q := by
  intro ts a rest hr
  obtain ⟨front, rfl, hp⟩ := h hr
  exact ⟨front, rfl, fun hc => hpq a front (hp hc)⟩

theorem Yields.map {r : Rule α} {P : α → List Token → Prop} (h : r.Yields P) (f : α → β) :
    (r.map f).Yields (fun b ts => ∃ a, f a = b ∧ P a ts) := by
  intro ts b rest hr
  cases hrun : r.run ts with
  | mk result left =>
    simp only [Rule.map, hrun, Reply.map] at hr
    cases result with
    | error why => simp [Except.map] at hr
    | ok a =>
      simp only [Except.map, Reply.mk.injEq, Except.ok.injEq] at hr
      obtain ⟨rfl, rfl⟩ := hr
      obtain ⟨front, rfl, hp⟩ := h hrun
      exact ⟨front, rfl, fun hc => ⟨a, rfl, hp hc⟩⟩

theorem Yields.andThen {r : Rule α} {next : α → Rule β} {P : α → List Token → Prop}
    {Q : α → β → List Token → Prop} (h : r.Yields P) (hn : ∀ a, (next a).Yields (Q a)) :
    (r.andThen next).Yields (fun b ts => ∃ a xs ys, ts = xs ++ ys ∧ P a xs ∧ Q a b ys) := by
  intro ts b rest hr
  simp only [Rule.andThen] at hr
  split at hr
  · simp at hr
  · rename_i a left hrun
    obtain ⟨xs, rfl, hp⟩ := h hrun
    obtain ⟨ys, rfl, hq⟩ := hn a hr
    refine ⟨xs ++ ys, by simp, fun hc => ⟨a, xs, ys, rfl, ?_, ?_⟩⟩
    · exact hp fun t ht => hc t (List.mem_append_left _ ht)
    · exact hq fun t ht => hc t (List.mem_append_right _ ht)

theorem kind_of_isA {t : Token} {k : Kind} (h : t.isA k = true) : t.kind = k := by
  simp only [Token.isA, Bool.and_eq_true, decide_eq_true_eq] at h
  exact h.1

/-- A rule that decides by the first token yields what its decision yields. -/
theorem yields_onToken {choose : Token → Step α} {P : α → List Token → Prop}
    (ha : ∀ t a, choose t = .accept (.ok a) → t.Carries → P a [t])
    (hd : ∀ t rule, choose t = .descend rule → rule.Yields (fun a ts => P a (t :: ts))) :
    (onToken choose).Yields P := by
  intro ts a rest hr
  cases ts with
  | nil => simp [onToken] at hr
  | cons t ts =>
    simp only [onToken] at hr
    cases hc : choose t with
    | accept result =>
      simp only [hc, Reply.mk.injEq] at hr
      obtain ⟨rfl, rfl⟩ := hr
      exact ⟨[t], rfl, fun hcarries => ha t a hc (hcarries t (by simp))⟩
    | descend rule =>
      simp only [hc] at hr
      obtain ⟨front, rfl, hp⟩ := hd t rule hc hr
      exact ⟨t :: front, rfl, fun hcarries => hp fun u hu => hcarries u (by simp [hu])⟩
    | refuse problem => simp [hc] at hr

theorem yields_expect (k : Kind) (problem : SyntaxProblem) :
    (expect k problem).Yields (fun t ts => ts = [t] ∧ t.kind = k) := by
  apply yields_onToken
  · intro t a h _
    split at h
    · rename_i hk
      simp only [Step.accept.injEq, Except.ok.injEq] at h
      subst a
      exact ⟨rfl, kind_of_isA hk⟩
    · simp at h
  · intro t rule h
    split at h <;> simp at h

theorem Yields.branch {taken other : Rule α} {P : α → List Token → Prop} {k : Kind}
    (ht : ∀ t, t.kind = k → taken.Yields (fun a ts => P a (t :: ts))) (ho : other.Yields P) :
    (Rule.branch k taken other).Yields P := by
  intro ts a rest hr
  cases ts with
  | nil => simp [Rule.branch] at hr
  | cons t ts =>
    simp only [Rule.branch] at hr
    split at hr
    · rename_i hk
      obtain ⟨front, rfl, hp⟩ := ht t (kind_of_isA hk) hr
      exact ⟨t :: front, rfl, fun hc => hp fun u hu => hc u (by simp [hu])⟩
    · exact ho hr

theorem binaryAt?_eq_some {level : Level} {t : Token} {op : Operator BinaryOp} :
    t.binaryAt? level = some op ↔ op.binaryToken = t ∧ op.op.level = level := by
  simp [Token.binaryAt?, Option.filter_eq_some_iff, Token.binary?_eq_some]

/-- Joining operands that bind more tightly than a level gives an expression of that level. The
induction is on the tokens that are left: what is read so far grows at its right end. -/
theorem chainFrom_yields {level : Level} {operand : Rule Expression} {budget : Nat}
    (h : operand.Yields (fun e ts => e.SpelledBy (level.rank + 1) budget ts))
    {left : Expression} {ts : List Token} {e : Expression} {rest : List Token}
    (hr : chainFrom level operand left ts = ⟨.ok e, rest⟩) :
    ∃ front, ts = front ++ rest ∧ ((∀ t ∈ front, t.Carries) →
      ∀ xs, left.SpelledBy level.rank budget xs → e.SpelledBy level.rank budget (xs ++ front)) := by
  fun_induction chainFrom level operand left ts with
  | case1 => simp at hr
  | case2 left t ts =>
    simp only [Reply.mk.injEq, Except.ok.injEq] at hr
    obtain ⟨rfl, rfl⟩ := hr
    exact ⟨[], rfl, fun _ xs hx => by simpa using hx⟩
  | case3 => simp at hr
  | case4 left t ts op hop right rest' hfound ih =>
    obtain ⟨rfl, hlevel⟩ := binaryAt?_eq_some.mp hop
    obtain ⟨ys, rfl, hy⟩ := h hfound
    obtain ⟨front, rfl, hf⟩ := ih hr
    refine ⟨op.binaryToken :: ys ++ front, by simp, fun hc xs hx => ?_⟩
    have hright := hy fun t ht => hc t (by simp [ht])
    have hjoined : (Expression.binary left op right).SpelledBy level.rank budget
        (xs ++ op.binaryToken :: ys) := by
      refine ⟨by simp [Expression.yield, hx.yields, hright.yields], ?_, ?_, ?_⟩
      · exact ⟨hx.ordered, hright.ordered, hlevel ▸ hx.strong, hlevel ▸ hright.strong⟩
      · exact Nat.le_of_eq (congrArg Level.rank hlevel.symm)
      · exact Nat.max_le.mpr ⟨hx.shallow, hright.shallow⟩
    simpa using hf (fun t ht => hc t (by simp [ht])) _ hjoined

theorem chain_yields (level : Level) {operand : Rule Expression} {budget : Nat}
    (h : operand.Yields (fun e ts => e.SpelledBy (level.rank + 1) budget ts)) :
    (chain level operand).Yields (fun e ts => e.SpelledBy level.rank budget ts) := by
  intro ts e rest hr
  simp only [chain] at hr
  split at hr
  · simp at hr
  · rename_i left after hfound
    obtain ⟨xs, rfl, hx⟩ := h hfound
    obtain ⟨front, rfl, hf⟩ := chainFrom_yields h hr
    refine ⟨xs ++ front, by simp, fun hc => ?_⟩
    have hleft := hx fun t ht => hc t (List.mem_append_left _ ht)
    exact hf (fun t ht => hc t (List.mem_append_right _ ht)) xs
      ⟨hleft.yields, hleft.ordered, Nat.le_of_succ_le hleft.strong, hleft.shallow⟩

/-- Joining by operators of every level from one on keeps to that level. -/
theorem joined_yields {operand : Rule Expression} {budget : Nat}
    (h : operand.Yields (fun e ts => e.SpelledBy 4 budget ts)) (level : Level) :
    (joined operand level).Yields (fun e ts => e.SpelledBy level.rank budget ts) := by
  have hfactor : (joined operand .factor).Yields (fun e ts => e.SpelledBy 3 budget ts) :=
    chain_yields .factor h
  have hterm : (joined operand .term).Yields (fun e ts => e.SpelledBy 2 budget ts) :=
    chain_yields .term hfactor
  have hcomparison : (joined operand .comparison).Yields (fun e ts => e.SpelledBy 1 budget ts) :=
    chain_yields .comparison hterm
  cases level with
  | equality => exact chain_yields .equality hcomparison
  | comparison => exact hcomparison
  | term => exact hterm
  | factor => exact hfactor

end Rule

end ExprScript

namespace ExprScript.Grammar
open Rule

theorem literalOf_symbol {t : Token} {e : Expression} (h : literalOf t = .ok e)
    (hk : t.kind = .number ∨ t.kind = .string) (hc : t.Carries) :
    ∃ v, e = .literal v ∧ t.symbol = v.symbol := by
  rcases hk with hk | hk
  · obtain ⟨x, hd⟩ := hc.1 hk
    simp only [literalOf, hd, Datum.value?, Except.ok.injEq] at h
    exact ⟨.number x, h.symm, by simp [Token.symbol, Value.symbol, hk, hd]⟩
  · obtain ⟨s, hd⟩ := hc.2 hk
    simp only [literalOf, hd, Datum.value?, Except.ok.injEq] at h
    exact ⟨.text s, h.symm, by simp [Token.symbol, Value.symbol, hk, hd]⟩

/-- A primary expression of one token is spelled by that token. -/
theorem spelledBy_of_accept {inner : Unit → Option (Rule Expression)} {t : Token}
    {e : Expression} (h : primaryStep inner t = .accept (.ok e)) (hc : t.Carries) (budget : Nat) :
    e.SpelledBy 4 budget [t] := by
  have literal (v : Value) (hs : t.symbol = v.symbol) :
      (Expression.literal v).SpelledBy 4 budget [t] :=
    ⟨by simp [Expression.yield, hs], trivial, by simp [Expression.strength],
      by simp [Expression.nesting]⟩
  unfold primaryStep at h
  split at h
  case h_1 hk => cases h; exact literal _ (by simp [Token.symbol, Value.symbol, hk])
  case h_2 hk => cases h; exact literal _ (by simp [Token.symbol, Value.symbol, hk])
  case h_3 hk => cases h; exact literal _ (by simp [Token.symbol, Value.symbol, hk])
  case h_4 hk =>
    obtain ⟨v, rfl, hs⟩ := literalOf_symbol (Step.accept.inj h) (.inl hk) hc
    exact literal v hs
  case h_5 hk =>
    obtain ⟨v, rfl, hs⟩ := literalOf_symbol (Step.accept.inj h) (.inr hk) hc
    exact literal v hs
  case h_6 hk =>
    cases h
    exact ⟨by simp [Token.symbol, Expression.yield, hk], trivial, by simp [Expression.strength],
      by simp [Expression.nesting]⟩
  case h_7 => split at h <;> cases h
  case h_8 => cases h

theorem group_of_descend {inner : Unit → Option (Rule Expression)} {t : Token}
    {rule : Rule Expression} (h : primaryStep inner t = .descend rule) :
    t.kind = .leftParen ∧ ∃ r, inner () = some r ∧ rule = groupOf r := by
  unfold primaryStep at h
  split at h <;> try cases h
  rename_i hk
  split at h
  · rename_i r hi
    cases h
    exact ⟨hk, r, hi, rfl⟩
  · cases h

theorem groupOf_yields {r : Rule Expression} {budget : Nat}
    (h : r.Yields (fun e ts => e.SpelledBy 0 budget ts)) {t : Token} (hk : t.kind = .leftParen) :
    (groupOf r).Yields (fun e ts => e.SpelledBy 4 (budget + groupCost) (t :: ts)) := by
  have hall := h.andThen (fun e =>
    (yields_expect .rightParen .expectParen).map (fun _ => Expression.group e))
  apply hall.mono
  rintro e ts ⟨i, xs, ys, rfl, hi, u, rfl, rfl, hu⟩
  refine ⟨?_, hi.ordered, by simp [Expression.strength], ?_⟩
  · simp [Expression.yield, Token.symbol, hk, hu, hi.yields]
  · exact Nat.add_le_add_right hi.shallow _

/-- What the rule for prefix operators does about the first token. -/
def unaryStep (budget : Nat) (t : Token) : Step Expression :=
  match t.unary? with
  | some op =>
    if 1 ≤ budget then .descend ((unary (budget - 1)).map (.unary op))
    else .accept (.error .tooDeep)
  | none =>
    primaryStep
      (fun _ => if groupCost ≤ budget then some ((unary (budget - groupCost)).joined .equality)
        else none) t

theorem unary_eq (budget : Nat) : unary budget = onToken (unaryStep budget) := by
  rw [unary]
  rfl

theorem unaryStep_accept {budget : Nat} {t : Token} {result : Except Failure Expression}
    (h : unaryStep budget t = .accept result) :
    result = .error .tooDeep ∨ ∃ inner, primaryStep inner t = .accept result := by
  unfold unaryStep at h
  split at h
  · split at h <;> cases h
    exact .inl rfl
  · exact .inr ⟨_, h⟩

/-- The rule goes on in two ways only: behind a prefix operator, and inside a group. -/
theorem unaryStep_descend {budget : Nat} {t : Token} {rule : Rule Expression}
    (h : unaryStep budget t = .descend rule) :
    (∃ op, t = op.unaryToken ∧ 1 ≤ budget ∧ rule = (unary (budget - 1)).map (.unary op)) ∨
      (t.kind = .leftParen ∧ groupCost ≤ budget ∧
        rule = groupOf ((unary (budget - groupCost)).joined .equality)) := by
  unfold unaryStep at h
  split at h
  · rename_i op hop
    split at h
    · rename_i hb
      cases h
      exact .inl ⟨op, (Token.unary?_eq_some.mp hop).symm, hb, rfl⟩
    · cases h
  · obtain ⟨hk, r, hr, rfl⟩ := group_of_descend h
    split at hr
    · rename_i hb
      cases hr
      exact .inr ⟨hk, hb, rfl⟩
    · cases hr

/-- What the rule for prefix operators reads is spelled by the tokens it takes, within the nesting
it was given. The induction is on that nesting. -/
theorem unary_yields (budget : Nat) :
    (unary budget).Yields (fun e ts => e.SpelledBy 4 budget ts) := by
  induction budget using Nat.strongRecOn with
  | _ budget ih =>
    rw [unary_eq]
    apply yields_onToken
    · intro t e h hc
      rcases unaryStep_accept h with herr | ⟨inner, h⟩
      · cases herr
      · exact spelledBy_of_accept h hc budget
    · intro t rule h
      rcases unaryStep_descend h with ⟨op, rfl, hb, rfl⟩ | ⟨hk, hb, rfl⟩
      · apply ((ih (budget - 1) (by omega)).map (Expression.unary op)).mono
        rintro e ts ⟨operand, rfl, ho⟩
        refine ⟨by simp [Expression.yield, ho.yields], ⟨ho.ordered, ho.strong⟩, Nat.le_refl 4, ?_⟩
        have hs := ho.shallow
        simp only [Expression.nesting]
        omega
      · have hcost : 0 < groupCost := by decide
        have hinner := joined_yields (ih (budget - groupCost) (by omega)) .equality
        have hgroup := groupOf_yields hinner hk
        rwa [Nat.sub_add_cancel hb] at hgroup

theorem expressionWithin_yields (budget : Nat) :
    (expressionWithin budget).Yields (fun e ts => e.SpelledBy 0 budget ts) :=
  joined_yields (unary_yields budget) .equality

theorem expression_yields :
    expression.Yields (fun e ts => e.SpelledBy 0 nestingLimit ts) :=
  expressionWithin_yields nestingLimit

end ExprScript.Grammar
