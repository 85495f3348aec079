import ExprScript.Proofs.Stretches

namespace ExprScript

namespace Expression

variable {e f : Expression}

theorem ofDatum_eq_ok_iff {d : Datum} :
    ofDatum d = .ok e ↔ ∃ v, d.value? = .ok v ∧ e = .literal v := by
  unfold ofDatum
  cases d.value? <;> simp [eq_comm]

theorem ofUnary_eq_ok_iff {t : Token} :
    ofUnary t e = .ok f ↔ ∃ op, t.unary? = some op ∧ f = .unary op e := by
  unfold ofUnary
  cases t.unary? <;> simp [eq_comm]

theorem ofBinary_eq_ok_iff {left right : Expression} {t : Token} :
    ofBinary left t right = .ok f ↔ ∃ op, t.binary? = some op ∧ f = .binary left op right := by
  unfold ofBinary
  cases t.binary? <;> simp [eq_comm]

end Expression

/-- The datum that the literal of a token is made from. -/
def Token.literalDatum? (t : Token) : Option Datum :=
  match t.kind with
  | .falseWord => some (.value (.bool false))
  | .trueWord => some (.value (.bool true))
  | .nilWord => some .nil
  | .number | .string => some t.datum
  | _ => none

namespace Expression

/-- The expression is made of the tokens from left to right. Every node with a check on its parts
has passed that check. -/
inductive MadeOf : Expression → List Token → Prop where
  | literal {e : Expression} {t : Token} {d : Datum} (hd : t.literalDatum? = some d)
      (made : ofDatum d = .ok e) : MadeOf e [t]
  | group {inner : Expression} {ts : List Token} {o c : Token} (ho : o.kind = .leftParen)
      (inside : MadeOf inner ts) (hc : c.kind = .rightParen) :
      MadeOf (.group inner) (o :: ts ++ [c])
  | unary {e operand : Expression} {t : Token} {ts : List Token} (below : MadeOf operand ts)
      (made : ofUnary t operand = .ok e) : MadeOf e (t :: ts)
  | binary {e left right : Expression} {t : Token} {xs ys : List Token} (before : MadeOf left xs)
      (behind : MadeOf right ys) (made : ofBinary left t right = .ok e) : MadeOf e (xs ++ t :: ys)
  | name {t : Token} (ht : t.kind = .identifier) : MadeOf (.variable t) [t]

theorem ofDatum_of_symbol {t : Token} {v : Value} (h : t.symbol = v.symbol) :
    ∃ d, t.literalDatum? = some d ∧ ofDatum d = .ok (.literal v) := by
  match v with
  | .nil | .bool true | .bool false =>
    have hk := Token.kind_of_symbol_mark h
    exact ⟨_, by rw [Token.literalDatum?, hk], rfl⟩
  | .number _ | .text _ =>
    obtain ⟨hk, hd⟩ := Token.of_symbol_literal h
    exact ⟨_, by rw [Token.literalDatum?, hk, hd], rfl⟩

theorem symbol_of_ofDatum {t : Token} {d : Datum} {v : Value} (hd : t.literalDatum? = some d)
    (hc : t.Carries) (made : d.value? = .ok v) : t.symbol = v.symbol := by
  unfold Token.literalDatum? at hd
  split at hd
  case h_1 hk | h_2 hk | h_3 hk => cases hd; cases made; simp [Token.symbol, Value.symbol, hk]
  case h_4 hk =>
    cases hd
    obtain ⟨x, hx⟩ := hc.1 hk
    rw [hx] at made
    cases made
    simp [Token.symbol, Value.symbol, hk, hx]
  case h_5 hk =>
    cases hd
    obtain ⟨s, hs⟩ := hc.2 hk
    rw [hs] at made
    cases made
    simp [Token.symbol, Value.symbol, hk, hs]
  case h_6 => cases hd

/-- Tokens that have the texts of a tree from left to right make that tree. -/
theorem madeOf_of_yield {e : Expression} {ts : List Token} (h : ts.map Token.symbol = e.yield) :
    e.MadeOf ts := by
  induction e generalizing ts with
  | literal v =>
    obtain ⟨t, rfl, ht⟩ := List.map_eq_singleton_iff.mp h
    obtain ⟨d, hd, made⟩ := ofDatum_of_symbol ht
    exact .literal hd made
  | group inner ih =>
    obtain ⟨o, us, rfl, ho, hus⟩ := List.map_eq_cons_iff.mp h
    obtain ⟨xs, ys, rfl, hxs, hys⟩ := List.map_eq_append_iff.mp hus
    obtain ⟨c, rfl, hc⟩ := List.map_eq_singleton_iff.mp hys
    exact .group (Token.kind_of_symbol_mark ho) (ih hxs) (Token.kind_of_symbol_mark hc)
  | unary op operand ih =>
    obtain ⟨t, us, rfl, ht, hus⟩ := List.map_eq_cons_iff.mp h
    obtain rfl := Token.eq_of_symbol_operator ht
    exact .unary (ih hus) (ofUnary_eq_ok_iff.mpr ⟨op, Token.unary?_unaryToken op, rfl⟩)
  | binary left op right ihl ihr =>
    obtain ⟨xs, us, rfl, hxs, hus⟩ := List.map_eq_append_iff.mp h
    obtain ⟨t, ys, rfl, ht, hys⟩ := List.map_eq_cons_iff.mp hus
    obtain rfl := Token.eq_of_symbol_operator ht
    exact .binary (ihl hxs) (ihr hys)
      (ofBinary_eq_ok_iff.mpr ⟨op, Token.binary?_binaryToken op, rfl⟩)
  | «variable» name =>
    obtain ⟨t, rfl, ht⟩ := List.map_eq_singleton_iff.mp h
    obtain ⟨rfl, hk⟩ := Token.eq_of_symbol_name ht
    exact .name hk

/-- The checked nodes make no other trees than these. -/
theorem madeOf_iff {e : Expression} {ts : List Token} (hc : ∀ t ∈ ts, t.Carries) :
    e.MadeOf ts ↔ ts.map Token.symbol = e.yield := by
  refine ⟨fun h => ?_, madeOf_of_yield⟩
  induction h with
  | literal hd made =>
    obtain ⟨v, hv, rfl⟩ := ofDatum_eq_ok_iff.mp made
    simp [yield, symbol_of_ofDatum hd (hc _ (by simp)) hv]
  | group ho inside hclose ih =>
    simp [yield, Token.symbol, ho, hclose, ih fun t ht => hc t (by simp [ht])]
  | unary below made ih =>
    obtain ⟨op, hop, rfl⟩ := ofUnary_eq_ok_iff.mp made
    obtain rfl := Token.unary?_eq_some.mp hop
    simp [yield, ih fun t ht => hc t (by simp [ht])]
  | binary before behind made ihl ihr =>
    obtain ⟨op, hop, rfl⟩ := ofBinary_eq_ok_iff.mp made
    obtain rfl := Token.binary?_eq_some.mp hop
    simp [yield, ihl fun t ht => hc t (by simp [ht]), ihr fun t ht => hc t (by simp [ht])]
  | name ht => simp [yield, Token.symbol, ht]

end Expression

theorem Statement.SpelledBy.exists_madeOf {s : Statement} {ts : List Token} (h : s.SpelledBy ts)
    {e : Expression} (he : e ∈ s.expression?) : ∃ us, us <:+: ts ∧ e.MadeOf us := by
  have hinfix : ∃ before after, s.yield = before ++ e.yield ++ after := by
    match s with
    | .expression _ => cases he; exact ⟨[], _, rfl⟩
    | .print _ => cases he; exact ⟨[.mark .printWord], _, rfl⟩
    | .declare name _ => cases he; exact ⟨[.mark .varWord, .name name, .mark .equal], _, rfl⟩
  obtain ⟨before, after, hy⟩ := hinfix
  obtain ⟨front, zs, rfl, hfront, -⟩ := List.map_eq_append_iff.mp (h.yields.trans hy)
  obtain ⟨xs, us, rfl, -, hus⟩ := List.map_eq_append_iff.mp hfront
  exact ⟨us, ⟨xs, zs, rfl⟩, Expression.madeOf_of_yield hus⟩

namespace Grammar

/-- A literal token is read as what its datum makes, and refused with the same message. -/
theorem mapError_literalOf (t : Token) : (literalOf t).mapError Failure.message =
    (Expression.ofDatum t.datum).mapError NodeError.message := by
  unfold literalOf Expression.ofDatum
  cases t.datum.value? <;> rfl

/-- An expression read on its own is made of the tokens in front of the end mark. -/
theorem exists_madeOf_of_wholeExpression {ts : List Token} (hc : ∀ t ∈ ts, t.Carries)
    {e : Expression} (hok : (wholeExpression ts).result = .ok e) :
    ∃ front t rest, ts = front ++ t :: rest ∧ t.kind = .eof ∧ e.MadeOf front := by
  obtain ⟨front, t, rest, hts, ht, hspelled⟩ := spelled_of_wholeExpression hc hok
  exact ⟨front, t, rest, hts, ht, Expression.madeOf_of_yield hspelled.yields⟩

/-- Every expression in a program, with errors in other statements or without, is made of tokens
that stand next to each other. -/
theorem exists_madeOf_of_program {ts : List Token} {e : Token} (hts : ∀ t ∈ ts, t.kind ≠ .eof)
    (hc : ∀ t ∈ ts, t.Carries) (he : e.kind = .eof) {more : List Token} {ss : List Statement}
    (hok : (program (ts ++ e :: more)).result = .ok ss) {s : Statement} (hs : s ∈ ss)
    {f : Expression} (hf : f ∈ s.expression?) : ∃ us, us <:+: ts ∧ f.MadeOf us := by
  obtain ⟨xs, hall⟩ := stretches_to_end hts hc he
  have h := hall more
  have htokens : xs.flatMap Stretch.tokens = ts := (List.append_cancel_right h.tokens_eq).symm
  rw [h.program_eq] at hok
  cases hok
  obtain ⟨x, hx, hstatement⟩ := List.mem_filterMap.mp hs
  obtain ⟨before, after, hxs⟩ := List.append_of_mem hx
  obtain ⟨rest, haccounted, -⟩ := h.exists_behind hxs
  rcases haccounted.outcome with ⟨s', hs', -, hspelled⟩ | ⟨err, hnone, -⟩
  · obtain rfl := Option.some.inj (hs'.symm.trans hstatement)
    obtain ⟨us, hus, hmade⟩ := hspelled.exists_madeOf hf
    have htaken : x.tokens <:+: ts := by
      rw [← htokens, hxs, List.flatMap_append, List.flatMap_cons]
      exact ⟨_, _, List.append_assoc _ _ _⟩
    exact ⟨us, hus.trans htaken, hmade⟩
  · rw [hnone] at hstatement
    cases hstatement

end Grammar

end ExprScript
