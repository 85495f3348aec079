import ExprScript.Proofs.Lookahead

namespace ExprScript

/-- There is an end mark among the tokens. -/
def HasEnd (ts : List Token) : Prop := ∃ t ∈ ts, t.kind = .eof

/-- The tokens that are left when some in front of the first end mark are taken. -/
def SparesEnd (ts rest : List Token) : Prop :=
  ∃ taken, ts = taken ++ rest ∧ ∀ t ∈ taken, t.kind ≠ .eof

variable {ts rest left : List Token}

theorem HasEnd.ne_nil (h : HasEnd ts) : ts ≠ [] := by
  obtain ⟨t, ht, -⟩ := h
  exact List.ne_nil_of_mem ht

theorem HasEnd.tail {t : Token} (h : HasEnd (t :: ts)) (ht : t.kind ≠ .eof) : HasEnd ts := by
  obtain ⟨u, hu, hk⟩ := h
  rcases List.mem_cons.mp hu with rfl | hu
  · exact absurd hk ht
  · exact ⟨u, hu, hk⟩

namespace SparesEnd

theorem refl (ts : List Token) : SparesEnd ts ts := ⟨[], rfl, by simp⟩

theorem trans (h : SparesEnd ts rest) (h' : SparesEnd rest left) : SparesEnd ts left := by
  obtain ⟨xs, rfl, hxs⟩ := h
  obtain ⟨ys, rfl, hys⟩ := h'
  exact ⟨xs ++ ys, by simp, List.forall_mem_append.mpr ⟨hxs, hys⟩⟩

theorem one {t : Token} (ht : t.kind ≠ .eof) (ts : List Token) : SparesEnd (t :: ts) ts :=
  ⟨[t], rfl, by simpa using ht⟩

/-- The end mark is still ahead. -/
theorem hasEnd (h : SparesEnd ts rest) (hts : HasEnd ts) : HasEnd rest := by
  obtain ⟨taken, rfl, htaken⟩ := h
  obtain ⟨t, ht, hk⟩ := hts
  rcases List.mem_append.mp ht with ht | ht
  · exact absurd hk (htaken t ht)
  · exact ⟨t, ht, hk⟩

end SparesEnd

theorem map_ne_outOfTokens {α β : Type} {result : Except Failure α}
    (h : result ≠ .error .outOfTokens) (f : α → β) : result.map f ≠ .error .outOfTokens := by
  cases result with
  | error why =>
    rintro ⟨⟩
    exact h rfl
  | ok a => rintro ⟨⟩

/-- A reading of tokens has come to an outcome without passing an end mark, and not because it ran
out of tokens. -/
structure Stopped {α : Type} (ts : List Token) (result : Except Failure α) (rest : List Token) :
    Prop where
  spares : SparesEnd ts rest
  found : result ≠ .error .outOfTokens

namespace Stopped

variable {α β : Type} {result : Except Failure α}

theorem behind (h : Stopped rest result left) (front : SparesEnd ts rest) :
    Stopped ts result left :=
  ⟨front.trans h.spares, h.found⟩

theorem error {why : Failure} (h : Stopped ts (.error why : Except Failure α) rest) :
    Stopped ts (.error why : Except Failure β) rest := by
  refine ⟨h.spares, ?_⟩
  rintro ⟨⟩
  exact h.found rfl

theorem map (h : Stopped ts result rest) (f : α → β) : Stopped ts (result.map f) rest :=
  ⟨h.spares, map_ne_outOfTokens h.found f⟩

end Stopped

namespace Rule

variable {α β : Type}

/-- Wherever there is an end mark ahead, the rule comes to an outcome in front of it. -/
def Stops (r : Rule α) : Prop :=
  ∀ ⦃ts⦄, HasEnd ts → Stopped ts (r.run ts).result (r.run ts).rest

theorem Stops.map {r : Rule α} (h : r.Stops) (f : α → β) : (r.map f).Stops :=
  fun _ hts => (h hts).map f

theorem Stops.andThen {r : Rule α} {next : α → Rule β} (h : r.Stops)
    (hn : ∀ a, (next a).Stops) : (r.andThen next).Stops := by
  intro ts hts
  have hr := h hts
  simp only [Rule.andThen]
  split <;> rename_i hrun <;> rw [hrun] at hr
  · exact hr.error
  · exact (hn _ (hr.spares.hasEnd hts)).behind hr.spares

theorem stops_onToken {choose : Token → Step α}
    (hend : ∀ t, t.kind = .eof → ∃ problem, choose t = .refuse problem)
    (ha : ∀ t, choose t ≠ .accept (.error .outOfTokens))
    (hd : ∀ t rule, choose t = .descend rule → rule.Stops) : (onToken choose).Stops := by
  intro ts hts
  cases ts with
  | nil => exact absurd rfl hts.ne_nil
  | cons t ts =>
    have inside (htaken : ∀ problem, choose t ≠ .refuse problem) : t.kind ≠ .eof :=
      fun hk => (hend t hk).elim htaken
    simp only [onToken]
    cases hc : choose t with
    | accept result =>
      refine ⟨.one (inside (by simp [hc])) ts, ?_⟩
      rintro rfl
      exact ha t hc
    | descend rule =>
      have ht := inside (by simp [hc])
      exact (hd t rule hc (hts.tail ht)).behind (.one ht ts)
    | refuse problem => exact ⟨.refl _, by simp⟩

theorem stops_expect (k : Kind) (problem : SyntaxProblem) : (expect k problem).Stops := by
  apply stops_onToken
  · intro t hk
    exact ⟨problem, if_neg fun hisA => ne_eof_of_isA hisA hk⟩
  · intro t h
    split at h <;> cases h
  · intro t rule h
    split at h <;> cases h

theorem Stops.branch {taken other : Rule α} (ht : taken.Stops) (ho : other.Stops) (k : Kind) :
    (Rule.branch k taken other).Stops := by
  intro ts hts
  cases ts with
  | nil => exact absurd rfl hts.ne_nil
  | cons t ts =>
    simp only [Rule.branch]
    split
    · rename_i hisA
      have hk := ne_eof_of_isA hisA
      exact (ht (hts.tail hk)).behind (.one hk ts)
    · exact ho hts

theorem chainFrom_stopped {level : Level} {operand : Rule Expression} (h : operand.Stops)
    (left : Expression) {ts : List Token} (hts : HasEnd ts) :
    Stopped ts (chainFrom level operand left ts).result (chainFrom level operand left ts).rest := by
  fun_induction chainFrom level operand left ts with
  | case1 left => exact absurd rfl hts.ne_nil
  | case2 left t ts => exact ⟨.refl _, by simp⟩
  | case3 left t ts op hop why rest hfound =>
    have hk : t.kind ≠ .eof := fun hk => not_ends_of_binaryAt? hop (.inr hk)
    have hr := h (hts.tail hk)
    rw [hfound] at hr
    exact hr.behind (.one hk ts)
  | case4 left t ts op hop right rest hfound ih =>
    have hk : t.kind ≠ .eof := fun hk => not_ends_of_binaryAt? hop (.inr hk)
    have hr := h (hts.tail hk)
    rw [hfound] at hr
    exact ((ih (hr.spares.hasEnd (hts.tail hk))).behind hr.spares).behind (.one hk ts)

theorem Stops.chain {operand : Rule Expression} (h : operand.Stops) (level : Level) :
    (Rule.chain level operand).Stops := by
  intro ts hts
  have hr := h hts
  simp only [Rule.chain]
  split <;> rename_i hfound <;> rw [hfound] at hr
  · exact hr
  · exact (chainFrom_stopped h _ (hr.spares.hasEnd hts)).behind hr.spares

theorem joined_stops {operand : Rule Expression} (h : operand.Stops) (level : Level) :
    (joined operand level).Stops :=
  joined_of_chain (P := Stops) h (fun level _ hr => hr.chain level) level

end Rule

namespace Grammar
open Rule

theorem primaryStep_ne_outOfTokens {inner : Unit → Option (Rule Expression)} {t : Token} :
    primaryStep inner t ≠ .accept (.error .outOfTokens) := by
  have literal : literalOf t ≠ .error .outOfTokens := by
    unfold literalOf
    split <;> simp
  intro h
  unfold primaryStep at h
  split at h <;> try cases h
  case h_4 => exact literal (Step.accept.inj h)
  case h_5 => exact literal (Step.accept.inj h)
  case h_7 => split at h <;> cases h

theorem groupOf_stops {inner : Rule Expression} (h : inner.Stops) : (groupOf inner).Stops :=
  h.andThen fun _ => (stops_expect _ _).map _

theorem unary_stops (budget : Nat) : (unary budget).Stops := by
  induction budget using Nat.strongRecOn with
  | _ budget ih =>
    rw [unary_eq]
    apply stops_onToken
    · intro t hk
      exact ⟨.expectExpression,
        by simp [unaryStep, unary?_of_ends (.inr hk), primaryStep_refuses (.inr hk)]⟩
    · intro t h
      rcases unaryStep_accept h with herr | ⟨inner, h⟩
      · cases herr
      · exact primaryStep_ne_outOfTokens h
    · intro t rule h
      rcases unaryStep_descend h with ⟨op, rfl, hb, rfl⟩ | ⟨hk, hb, rfl⟩
      · exact (ih (budget - 1) (by omega)).map _
      · have hcost : 0 < groupCost := by decide
        exact groupOf_stops (joined_stops (ih (budget - groupCost) (by omega)) .equality)

theorem binary_stops (level : Level) : (binary level).Stops := joined_stops (unary_stops _) level

theorem expression_stops : expression.Stops := binary_stops .equality

theorem primary_stops : primary.Stops := by
  apply stops_onToken
  · exact fun t hk => ⟨.expectExpression, primaryStep_refuses (.inr hk)⟩
  · exact fun t => primaryStep_ne_outOfTokens
  · intro t rule h
    obtain ⟨-, inner, hinner, rfl⟩ := group_of_descend h
    obtain rfl := Option.some.inj hinner
    exact groupOf_stops (joined_stops (unary_stops _) .equality)

theorem expression_semicolon_stops (f : Expression → Statement) (problem : SyntaxProblem) :
    (expression.andThen fun e => (semicolon problem).map fun _ => f e).Stops :=
  expression_stops.andThen fun _ => (stops_expect _ _).map _

theorem printBody_stops : printBody.Stops := expression_semicolon_stops _ _

theorem expressionStatement_stops : expressionStatement.Stops := expression_semicolon_stops _ _

theorem declarationBody_stops : declarationBody.Stops :=
  (stops_expect _ _).andThen fun _ =>
    (expression_semicolon_stops _ _).branch ((stops_expect _ _).map _) _

theorem plainStatement_stops : plainStatement.Stops :=
  printBody_stops.branch expressionStatement_stops _

theorem statement_stops : statement.Stops := declarationBody_stops.branch plainStatement_stops _

variable {ts : List Token}

/-- Where reading went too deep there is a token left to report it at. -/
theorem atDepth_stopped {α : Type} {r : Reply α} (hts : HasEnd ts)
    (h : Stopped ts r.result r.rest) : Stopped ts (atDepth r).result (atDepth r).rest := by
  unfold atDepth
  split
  · exact ⟨h.spares, by simp⟩
  · exact absurd rfl (h.spares.hasEnd hts).ne_nil
  · exact h

theorem wholeExpression_stopped (hts : HasEnd ts) :
    Stopped ts (wholeExpression ts).result (wholeExpression ts).rest := by
  have h := atDepth_stopped hts (expression_stops hts)
  unfold wholeExpression
  split <;> rename_i hrun <;> rw [hrun] at h
  · exact h
  · exact absurd rfl (h.spares.hasEnd hts).ne_nil
  · split <;> exact ⟨h.spares, by simp⟩

theorem seekBoundary_stopped (previous : Token) (hts : HasEnd ts) :
    Stopped ts (seekBoundary previous ts).result (seekBoundary previous ts).rest := by
  fun_induction seekBoundary previous ts with
  | case1 => exact absurd rfl hts.ne_nil
  | case2 => exact ⟨.refl _, by simp⟩
  | case3 previous t ts hseek ih =>
    have hk : t.kind ≠ .eof := fun hk => hseek (.inl hk)
    exact (ih (hts.tail hk)).behind (.one hk ts)

theorem synchronize_stopped (hts : HasEnd ts) :
    Stopped ts (synchronize ts).result (synchronize ts).rest := by
  cases ts with
  | nil => exact absurd rfl hts.ne_nil
  | cons t ts =>
    rw [synchronize]
    split
    · exact ⟨.refl _, by simp⟩
    · rename_i hk
      exact (seekBoundary_stopped t (hts.tail hk)).behind (.one hk ts)

/-- Recovery starts where the error was found, so a failed declaration stays in front of the end
mark just as one that is read. -/
theorem declaration_stopped (hts : HasEnd ts) :
    Stopped ts (declaration ts).result (declaration ts).rest := by
  have h := atDepth_stopped hts (statement_stops hts)
  unfold declaration
  split <;> rename_i hrun <;> rw [hrun] at h
  · exact ⟨h.spares, by simp⟩
  · exact ((synchronize_stopped (h.spares.hasEnd hts)).map _).behind h.spares
  · exact h.error

/-- The induction follows the declarations: each stops in front of the end mark, so it is ahead of
the next one too. -/
theorem program_stopped (hts : HasEnd ts) :
    Stopped ts (program ts).result (program ts).rest := by
  fun_induction program ts with
  | case1 => exact absurd rfl hts.ne_nil
  | case2 => exact ⟨.refl _, by simp⟩
  | case3 t ts inside first why hfailed =>
    have h := declaration_stopped hts
    rw [hfailed] at h
    exact h.error
  | case4 t ts inside first s hdone others ih =>
    have h := declaration_stopped hts
    exact ((ih (h.spares.hasEnd hts)).map _).behind h.spares

end Grammar

end ExprScript
