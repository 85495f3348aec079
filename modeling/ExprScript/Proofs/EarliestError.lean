import ExprScript.Proofs.Phrases
import ExprScript.Proofs.Recovery

namespace ExprScript

namespace Grammar

/-- Taking tokens leads from a place with tokens ahead to one with some of them still ahead. -/
inductive Route : Place → List Token → Place → List Token → Prop where
  | here (p : Place) (ts : List Token) : Route p ts p ts
  | step {p p' q : Place} {t : Token} {ts rest : List Token} (taken : p.next t.kind = some p')
      (onward : Route p' ts q rest) : Route p (t :: ts) q rest

namespace Route

variable {p q s : Place} {t : Token} {ts rest left : List Token}

theorem one (taken : p.next t.kind = some q) : Route p (t :: ts) q ts := .step taken (.here q ts)

theorem trans (h : Route p ts q rest) (h' : Route q rest s left) : Route p ts s left := by
  induction h with
  | here => exact h'
  | step taken _ ih => exact .step taken (ih h')

theorem follow (h : Route p ts q rest) :
    ∃ front, ts = front ++ rest ∧ p.follow (front.map (·.kind)) = some q := by
  induction h with
  | here p ts => exact ⟨[], rfl, rfl⟩
  | @step _ _ _ t _ _ taken _ ih =>
    obtain ⟨front, rfl, hfront⟩ := ih
    exact ⟨t :: front, rfl, by simp [taken, hfront]⟩

end Route

/-- Taking tokens leads to a place where the next token, the given one, cannot come. -/
def Blocked (p : Place) (ts rest : List Token) (t : Token) : Prop :=
  ∃ q, Route p ts q rest ∧ rest.head? = some t ∧ q.next t.kind = none

theorem Route.blocked {p q : Place} {ts rest left : List Token} {t : Token}
    (h : Route p ts q rest) (h' : Blocked q rest left t) : Blocked p ts left t := by
  obtain ⟨s, hroute, hs⟩ := h'
  exact ⟨s, h.trans hroute, hs⟩

end Grammar

open Grammar

/-- What a reply says about the tokens it was made from: a success has led from one place to
another, and an error of the grammar is found at a token that cannot come where it stands. -/
def Reply.Walks {α : Type} (r : Reply α) (p : Place) (ts : List Token) (q : Place) : Prop :=
  match r with
  | ⟨.ok _, rest⟩ => Route p ts q rest
  | ⟨.error (.violation e), rest⟩ => Blocked p ts rest e.token
  | ⟨.error _, _⟩ => True

theorem Reply.Walks.after {α : Type} {r : Reply α} {p p' q : Place} {ts rest : List Token}
    (h : r.Walks p' rest q) (front : Route p ts p' rest) : r.Walks p ts q := by
  obtain ⟨result | a, left⟩ := r
  · cases result with
    | violation e => exact front.blocked h
    | _ => trivial
  · exact front.trans h

/-- Where the next token leads from two places alike, what is said of the one holds of the other. -/
theorem Reply.Walks.restart {α : Type} {r : Reply α} {p p' q : Place} {t : Token} {ts : List Token}
    (h : r.Walks p' (t :: ts) q) (same : p.next t.kind = p'.next t.kind) (hne : p' ≠ q) :
    r.Walks p (t :: ts) q := by
  obtain ⟨result | a, left⟩ := r
  · cases result with
    | violation e =>
      obtain ⟨s, hroute, hhead, hstuck⟩ := h
      cases hroute with
      | here =>
        cases hhead
        exact ⟨p, .here p _, rfl, same.trans hstuck⟩
      | step taken onward => exact ⟨s, .step (same.trans taken) onward, hhead, hstuck⟩
    | _ => trivial
  · change Route p' (t :: ts) q left at h
    cases h with
    | here => exact absurd rfl hne
    | step taken onward => exact Route.step (same.trans taken) onward

namespace Rule

variable {α β : Type} {p q s : Place}

/-- On all tokens the rule leads from one place to another, unless it fails where it must. -/
def Walks (r : Rule α) (p q : Place) : Prop := ∀ ts, (r.run ts).Walks p ts q

theorem map_walks {r : Rule α} {ts : List Token} (h : (r.run ts).Walks p ts q) (f : α → β) :
    ((r.map f).run ts).Walks p ts q := by
  simp only [Rule.map, Reply.map]
  cases hrun : r.run ts with
  | mk result rest =>
    rw [hrun] at h
    cases result with
    | error why => cases why <;> exact h
    | ok a => exact h

theorem andThen_walks {r : Rule α} {next : α → Rule β} {ts : List Token}
    (h : (r.run ts).Walks p ts q)
    (hn : ∀ a rest, r.run ts = ⟨.ok a, rest⟩ → ((next a).run rest).Walks q rest s) :
    ((r.andThen next).run ts).Walks p ts s := by
  simp only [Rule.andThen]
  cases hrun : r.run ts with
  | mk result rest =>
    rw [hrun] at h
    cases result with
    | error why => cases why <;> exact h
    | ok a => exact (hn a rest hrun).after h

theorem onToken_walks {choose : Token → Step α}
    (ha : ∀ t a, choose t = .accept (.ok a) → p.next t.kind = some q)
    (he : ∀ t e, choose t ≠ .accept (.error (.violation e)))
    (hd : ∀ t rule, choose t = .descend rule → ∃ p', p.next t.kind = some p' ∧ rule.Walks p' q)
    (hr : ∀ t problem, choose t = .refuse problem → p.next t.kind = none) :
    (onToken choose).Walks p q := by
  intro ts
  cases ts with
  | nil => trivial
  | cons t ts =>
    simp only [onToken]
    cases hc : choose t with
    | accept result =>
      cases result with
      | ok a => exact .one (ha t a hc)
      | error why =>
        cases why with
        | violation e => exact absurd hc (he t e)
        | _ => trivial
    | descend rule =>
      obtain ⟨p', hp, hrule⟩ := hd t rule hc
      exact (hrule ts).after (.one hp)
    | refuse problem => exact ⟨p, .here p _, rfl, hr t problem hc⟩

/-- Taking a token of one kind leads on where the next token cannot be of another kind. -/
theorem expect_walks {k : Kind} (hk : k ≠ .eof) (problem : SyntaxProblem)
    (taken : p.next k = some q) {ts : List Token}
    (others : ∀ t ∈ ts.head?, t.kind ≠ k → p.next t.kind = none) :
    ((expect k problem).run ts).Walks p ts q := by
  cases ts with
  | nil => trivial
  | cons t ts =>
    by_cases h : t.kind = k
    · simp only [expect, onToken, isA_eq_true h hk, if_true]
      exact .one (by rwa [h])
    · simp only [expect, onToken, isA_eq_false h, Bool.false_eq_true, if_false]
      exact ⟨p, .here p _, rfl, others t rfl h⟩

theorem chainFrom_walks {level : Level} {operand : Rule Expression} {closer : Kind} {depth : Nat}
    (h : operand.Walks (.operand closer depth) (.operator closer depth)) (left : Expression)
    (ts : List Token) :
    (chainFrom level operand left ts).Walks (.operator closer depth) ts
      (.operator closer depth) := by
  have behind {t : Token} {op : Operator BinaryOp} (hop : t.binaryAt? level = some op)
      (ts : List Token) : Route (.operator closer depth) (t :: ts) (.operand closer depth) ts := by
    obtain ⟨rfl, -⟩ := binaryAt?_eq_some.mp hop
    exact .one (Place.next_binary closer depth op.op)
  fun_induction chainFrom level operand left ts with
  | case1 => trivial
  | case2 => exact .here _ _
  | case3 left t ts op hop why rest hfound =>
    have hright := h ts
    rw [hfound] at hright
    have hall := hright.after (behind hop ts)
    cases why <;> exact hall
  | case4 left t ts op hop right rest hfound ih =>
    have hright := h ts
    rw [hfound] at hright
    exact ih.after ((behind hop ts).trans hright)

theorem chain_walks (level : Level) {operand : Rule Expression} {closer : Kind} {depth : Nat}
    (h : operand.Walks (.operand closer depth) (.operator closer depth)) :
    (chain level operand).Walks (.operand closer depth) (.operator closer depth) := by
  intro ts
  have hfirst := h ts
  simp only [chain]
  cases hrun : operand.run ts with
  | mk result rest =>
    rw [hrun] at hfirst
    cases result with
    | error why => cases why <;> exact hfirst
    | ok left => exact (chainFrom_walks h left rest).after hfirst

theorem joined_walks {operand : Rule Expression} {closer : Kind} {depth : Nat}
    (h : operand.Walks (.operand closer depth) (.operator closer depth)) (level : Level) :
    (joined operand level).Walks (.operand closer depth) (.operator closer depth) :=
  joined_of_chain (P := fun r => r.Walks (.operand closer depth) (.operator closer depth)) h
    (fun level _ hr => chain_walks level hr) level

/-- A success leaves nothing that could be joined by an operator of the rank or a higher one. -/
def Exhausts (r : Rule α) (rank : Nat) : Prop :=
  ∀ ⦃ts a rest⦄, r.run ts = ⟨.ok a, rest⟩ → rest ≠ [] → StopsJoining rank rest

theorem chainFrom_exhausts {level : Level} {operand : Rule Expression}
    (h : operand.Exhausts (level.rank + 1)) {left : Expression} {ts : List Token}
    (hts : ts ≠ [] → StopsJoining (level.rank + 1) ts) {e : Expression} {rest : List Token}
    (hr : chainFrom level operand left ts = ⟨.ok e, rest⟩) : StopsJoining level.rank rest := by
  fun_induction chainFrom level operand left ts with
  | case1 => cases hr
  | case2 left t ts hop =>
    cases hr
    intro op hbinary
    have hle := hts (by simp) op hbinary
    have hne : op.op.level ≠ level := by
      rintro rfl
      simp [Token.binaryAt?, hbinary] at hop
    have hrank : op.op.level.rank ≠ level.rank := fun hsame => hne (Level.rank_injective hsame)
    omega
  | case3 => cases hr
  | case4 left t ts op hop right rest' hfound ih => exact ih (h hfound) hr

theorem chain_exhausts (level : Level) {operand : Rule Expression}
    (h : operand.Exhausts (level.rank + 1)) : (chain level operand).Exhausts level.rank := by
  intro ts e rest hr _
  simp only [chain] at hr
  split at hr
  · cases hr
  · rename_i hfound
    exact chainFrom_exhausts h (h hfound) hr

/-- Joining on every level leaves no binary operator behind. -/
theorem joined_exhausts (operand : Rule Expression) : (joined operand .equality).Exhausts 0 := by
  have hfactor : operand.Exhausts 4 := by
    intro ts e rest _ hne
    cases rest with
    | nil => exact absurd rfl hne
    | cons t rest => exact fun op _ => op.op.level.rank_lt
  exact chain_exhausts .equality (chain_exhausts .comparison (chain_exhausts .term
    (chain_exhausts .factor hfactor)))

theorem ofKind?_eq_none_of_stops {t : Token} {ts : List Token} (h : StopsJoining 0 (t :: ts)) :
    BinaryOp.ofKind? t.kind = none := by
  by_contra hne
  obtain ⟨op, hop⟩ := Option.ne_none_iff_exists'.mp hne
  have hbinary : t.binary? = some ⟨op, t.lexeme, t.datum, t.line⟩ := by
    simp [Token.binary?, Operator.ofToken?, hop]
  exact Nat.not_lt_zero _ (h _ hbinary)

/-- An expression and the token that ends it. -/
theorem joined_expect_walks {operand : Rule Expression} {closer : Kind} {depth : Nat}
    (h : operand.Walks (.operand closer depth) (.operator closer depth))
    (hexit : BinaryOp.ofKind? (Place.exit closer depth).1 = none)
    (hk : (Place.exit closer depth).1 ≠ .eof) (problem : SyntaxProblem)
    (f : Expression → Token → α) :
    ((joined operand .equality).andThen fun e =>
      (expect (Place.exit closer depth).1 problem).map (f e)).Walks
        (.operand closer depth) (Place.exit closer depth).2 := by
  intro ts
  apply andThen_walks (joined_walks h .equality ts)
  intro e rest hrun
  apply map_walks
  apply expect_walks hk problem (Place.next_exit hexit)
  intro t ht hne
  cases rest with
  | nil => cases ht
  | cons u rest =>
    cases ht
    have hstop := joined_exhausts operand hrun (List.cons_ne_nil _ _)
    exact Place.next_operator_eq_none (ofKind?_eq_none_of_stops hstop) hne

end Rule

namespace Grammar
open Rule

theorem literalOf_ne_violation (t : Token) (e : SyntaxError) :
    literalOf t ≠ .error (.violation e) := by
  unfold literalOf
  split <;> simp

section
variable {inner : Unit → Option (Rule Expression)} {t : Token}

theorem isAtom_of_accept {e : Expression} (h : primaryStep inner t = .accept (.ok e)) :
    t.kind.isAtom = true := by
  cases hk : t.kind <;> first | rfl | simp [primaryStep, hk] at h
  -- A group is not accepted at its parenthesis, whether there is nesting left for it or not.
  split at h <;> cases h

theorem primaryStep_ne_violation (e : SyntaxError) :
    primaryStep inner t ≠ .accept (.error (.violation e)) := by
  intro h
  cases hk : t.kind <;> simp [primaryStep, hk, literalOf_ne_violation] at h
  split at h <;> cases h

theorem not_operand_of_refuse {problem : SyntaxProblem}
    (h : primaryStep inner t = .refuse problem) : t.kind.isAtom = false ∧ t.kind ≠ .leftParen := by
  cases hk : t.kind <;> simp [primaryStep, hk, Kind.isAtom] at h ⊢
  split at h <;> cases h

end

theorem unaryStep_refuse {budget : Nat} {t : Token} {problem : SyntaxProblem}
    (h : unaryStep budget t = .refuse problem) :
    UnaryOp.ofKind? t.kind = none ∧ t.kind.isAtom = false ∧ t.kind ≠ .leftParen := by
  unfold unaryStep at h
  split at h
  · split at h <;> cases h
  · rename_i hnone
    exact ⟨by simpa [Token.unary?, Operator.ofToken?] using hnone, not_operand_of_refuse h⟩

/-- The rule for prefix operators leads from where an operand is due to behind it, whatever nesting
is left. The induction is on that nesting. -/
theorem unary_walks (budget : Nat) (closer : Kind) (depth : Nat) :
    (unary budget).Walks (.operand closer depth) (.operator closer depth) := by
  induction budget using Nat.strongRecOn generalizing depth with
  | _ budget ih =>
    rw [unary_eq]
    apply onToken_walks
    · intro t e h
      rcases unaryStep_accept h with herr | ⟨inner, h⟩
      · cases herr
      · simp [Place.next, Place.intoOperand, isAtom_of_accept h]
    · intro t e h
      rcases unaryStep_accept h with herr | ⟨inner, h⟩
      · cases herr
      · exact primaryStep_ne_violation e h
    · intro t rule h
      rcases unaryStep_descend h with ⟨op, rfl, hb, rfl⟩ | ⟨hk, hb, rfl⟩
      · refine ⟨_, Place.next_unary closer depth op.op, fun ts => ?_⟩
        exact map_walks (ih (budget - 1) (by omega) depth ts) _
      · have hcost : 0 < groupCost := by decide
        refine ⟨.operand closer (depth + 1), by rw [hk]; rfl, ?_⟩
        have hinner := ih (budget - groupCost) (by omega) (depth + 1)
        exact joined_expect_walks hinner rfl (fun h => by cases h) .expectParen
          fun e _ => Expression.group e
    · intro t problem h
      obtain ⟨hunary, hatom, hparen⟩ := unaryStep_refuse h
      simp [Place.next, Place.intoOperand, hunary, hatom, hparen]

/-- An expression in a sentence and the semicolon behind it. -/
theorem expression_semicolon_walks (problem : SyntaxProblem) (f : Expression → Token → Statement) :
    (expression.andThen fun e => (semicolon problem).map (f e)).Walks (.operand .semicolon 0)
      .sentence :=
  joined_expect_walks (unary_walks nestingLimit .semicolon 0) rfl (by decide) problem f

theorem declarationBody_walks : declarationBody.Walks .name .sentence := by
  intro ts
  have hname (t : Token) (h : t.kind ≠ .identifier) : Place.name.next t.kind = none := by
    simp [Place.next, h]
  apply andThen_walks (expect_walks (by decide) _ (q := .initial) rfl fun t _ h => hname t h)
  intro name rest _
  cases rest with
  | nil => trivial
  | cons t rest =>
    by_cases hk : t.kind = .equal
    · simp only [branch, isA_eq_true hk (by decide), if_true]
      have hbody := expression_semicolon_walks .expectSemicolonAfterValue
        (fun e _ => .declare name (some e)) rest
      exact hbody.after (.one (by rw [hk]; rfl))
    · simp only [branch, isA_eq_false hk, Bool.false_eq_true, if_false]
      apply map_walks
      apply expect_walks (by decide) _ rfl
      rintro u ⟨⟩ hu
      simp only [Place.next]

/-- A statement leads to the next one. -/
theorem statement_walks {t : Token} (ht : t.kind ≠ .eof) (ts : List Token) :
    (statement.run (t :: ts)).Walks .sentence (t :: ts) .sentence := by
  by_cases hvar : t.kind = .varWord
  · simp only [statement, branch, isA_eq_true hvar (by decide), if_true]
    exact (declarationBody_walks ts).after (.one (by rw [hvar]; rfl))
  · by_cases hprint : t.kind = .printWord
    · simp only [statement, plainStatement, branch, isA_eq_false hvar,
        isA_eq_true hprint (by decide), Bool.false_eq_true, if_false, if_true]
      exact (expression_semicolon_walks _ _ ts).after (.one (by rw [hprint]; rfl))
    · simp only [statement, plainStatement, branch, isA_eq_false hvar, isA_eq_false hprint,
        Bool.false_eq_true, if_false]
      have hbody := expression_semicolon_walks .expectSemicolonAfterExpression
        (fun e _ => .expression e) (t :: ts)
      exact hbody.restart (Place.sentence_next ht hvar hprint) (by simp)

/-- A declaration leads to the next one, or its error is at a token that cannot come where it
stands, unless it is about the nesting. -/
theorem declaration_walks {t : Token} (ht : t.kind ≠ .eof) (ts : List Token) :
    ((declaration (t :: ts)).errors = [] ∧ ∀ o, (declaration (t :: ts)).result = .ok o →
      Route .sentence (t :: ts) .sentence (declaration (t :: ts)).rest) ∨
    ∃ e, (declaration (t :: ts)).errors = [e] ∧
      (e.problem = .tooDeep ∨ ∃ rest, Blocked .sentence (t :: ts) rest e.token) := by
  have hwalks := statement_walks ht ts
  unfold declaration
  cases hrun : statement.run (t :: ts) with
  | mk result rest =>
    rw [hrun] at hwalks
    cases result with
    | ok s => exact .inl ⟨rfl, fun _ _ => hwalks⟩
    | error why =>
      cases why with
      | violation e => exact .inr ⟨e, rfl, .inr ⟨rest, hwalks⟩⟩
      | tooDeep =>
        cases rest with
        | nil => exact .inl ⟨rfl, fun _ h => by cases h⟩
        | cons u rest => exact .inr ⟨⟨u, .tooDeep⟩, rfl, .inl rfl⟩
      | outOfTokens => exact .inl ⟨rfl, fun _ h => by cases h⟩
      | badLiteral => exact .inl ⟨rfl, fun _ h => by cases h⟩

/-- The errors of a program are those of its first declaration and, when reading goes on, those
of the others. -/
theorem program_errors {t : Token} (ht : t.kind ≠ .eof) (ts : List Token) :
    (program (t :: ts)).errors = (declaration (t :: ts)).errors ++
      match (declaration (t :: ts)).result with
      | .ok _ => (program (declaration (t :: ts)).rest).errors
      | .error _ => [] := by
  rw [program]
  simp only [ht, dite_false]
  split <;> rename_i hresult <;> simp [hresult]

/-- The first error that reading a program records, unless it is about the nesting, is at a token
that cannot follow the tokens in front of it. -/
theorem program_blocked {ts : List Token} {e : SyntaxError}
    (he : (program ts).errors.head? = some e) (hshallow : e.problem ≠ .tooDeep) :
    ∃ rest, Blocked .sentence ts rest e.token := by
  -- A declaration takes at least one token, so the induction is on how many there are.
  induction hn : ts.length using Nat.strongRecOn generalizing ts with
  | _ n ih =>
    subst hn
    cases ts with
    | nil => simp [program] at he
    | cons t ts =>
      by_cases ht : t.kind = .eof
      · simp [program_of_end ht] at he
      · rw [program_errors ht] at he
        rcases declaration_walks ht ts with ⟨hclean, hroute⟩ | ⟨e', herr, hcause⟩
        · cases hresult : (declaration (t :: ts)).result with
          | error why => simp [hclean, hresult] at he
          | ok o =>
            simp only [hclean, hresult, List.nil_append] at he
            obtain ⟨rest, hblocked⟩ := ih _ (declaration_rest_lt ts ht hresult) he rfl
            exact ⟨rest, (hroute o hresult).blocked hblocked⟩
        · rw [herr] at he
          obtain rfl : e' = e := Option.some.inj he
          exact hcause.resolve_left hshallow

/-- The error of a single expression, unless it is about the nesting, is at a token that cannot
follow the tokens in front of it. -/
theorem wholeExpression_blocked {ts : List Token} {e : SyntaxError}
    (he : (wholeExpression ts).result = .error (.violation e)) (hshallow : e.problem ≠ .tooDeep) :
    Blocked (.operand .eof 0) ts (wholeExpression ts).rest e.token := by
  have hwalks := joined_walks (unary_walks nestingLimit .eof 0) .equality ts
  change (expression.run ts).Walks _ ts _ at hwalks
  unfold wholeExpression at he ⊢
  cases hrun : expression.run ts with
  | mk result left =>
    rw [hrun] at he hwalks
    cases result with
    | error why =>
      cases why with
      | violation e' =>
        cases he
        exact hwalks
      | tooDeep =>
        cases left with
        | nil => cases he
        | cons u left =>
          cases he
          exact absurd rfl hshallow
      | outOfTokens => cases he
      | badLiteral => cases he
    | ok x =>
      cases left with
      | nil => cases he
      | cons t left =>
        simp only [atDepth] at he ⊢
        split at he
        · cases he
        · rename_i ht
          cases he
          rw [if_neg ht]
          have hstop := joined_exhausts (unary nestingLimit) hrun (List.cons_ne_nil _ _)
          exact ⟨_, hwalks, rfl,
            Place.next_operator_eq_none (ofKind?_eq_none_of_stops hstop) ht⟩

/-- Where a token is blocked, it is the least misfit of the language of the place. -/
theorem Blocked.firstMisfit {p : Place} {ts rest : List Token} {t : Token}
    (h : Blocked p ts rest t) {language : List Kind → Prop}
    (hviable : ∀ ks, Viable language ks ↔ (p.follow ks).isSome) :
    ∃ i, ts[i]? = some t ∧ rest = ts.drop i ∧ FirstMisfit language (ts.map (·.kind)) i := by
  obtain ⟨q, hroute, hhead, hstuck⟩ := h
  obtain ⟨front, rfl, hfront⟩ := hroute.follow
  obtain ⟨more, rfl⟩ : ∃ more, rest = t :: more := by
    cases rest with
    | nil => cases hhead
    | cons u more => exact ⟨more, by rw [Option.some.inj hhead]⟩
  refine ⟨front.length, by simp, by simp, ?_⟩
  have hmisfit := firstMisfit_of_stuck hviable (more.map (·.kind)) hfront hstuck
  simpa using hmisfit

/-- An error of the grammar is found at the earliest token that cannot be right. The first error
recorded for a program, unless it is about the nesting, is at the token of the least index such that
no program begins with the tokens up to it, and the tokens before it do begin a program. The error
of a single expression is found in the same way, and reading stops in front of that token. -/
theorem error_earliest (ts : List Token) (e : SyntaxError) (hshallow : e.problem ≠ .tooDeep) :
    ((program ts).errors.head? = some e →
      ∃ i, ts[i]? = some e.token ∧ FirstMisfit ProgramKinds (ts.map (·.kind)) i) ∧
    ((wholeExpression ts).result = .error (.violation e) →
      ∃ i, ts[i]? = some e.token ∧ (wholeExpression ts).rest = ts.drop i ∧
        FirstMisfit WholeKinds (ts.map (·.kind)) i) := by
  constructor
  · intro he
    obtain ⟨rest, hblocked⟩ := program_blocked he hshallow
    obtain ⟨i, hi, -, hmisfit⟩ := hblocked.firstMisfit viable_program_iff
    exact ⟨i, hi, hmisfit⟩
  · intro he
    exact (wholeExpression_blocked he hshallow).firstMisfit viable_whole_iff

/-- A group that is not closed is found at the token in the place of its parenthesis. -/
theorem error_earliest_open_group :
    let ts : List Token := [⟨.leftParen, "(", .nil, 1⟩, ⟨.identifier, "a", .nil, 1⟩,
      ⟨.semicolon, ";", .nil, 1⟩, .ending 1]
    FirstMisfit ProgramKinds (ts.map (·.kind)) 2 ∧ FirstMisfit WholeKinds (ts.map (·.kind)) 2 := by
  intro ts
  have hat (i : Nat) (h : ts[i]? = some ⟨.semicolon, ";", .nil, 1⟩) : i = 2 := by
    rcases i with _ | _ | _ | _ | i <;> simp [ts, Token.ending] at h ⊢
  have h := error_earliest ts ⟨⟨.semicolon, ";", .nil, 1⟩, .expectParen⟩ (by decide)
  obtain ⟨i, hi, hprogram⟩ := h.1 (by decide +kernel)
  obtain ⟨j, hj, -, hwhole⟩ := h.2 (by decide +kernel)
  rw [hat i hi] at hprogram
  rw [hat j hj] at hwhole
  exact ⟨hprogram, hwhole⟩

end Grammar

end ExprScript
