import ExprScript.Proofs.Soundness

namespace ExprScript

/-- The tokens that no expression reaches over: the end of a statement and the end of all. -/
def Token.Ends (t : Token) : Prop := t.kind = .semicolon ∨ t.kind = .eof

/-- Tokens whose literals can be read and of which the last one is an end. -/
structure Ended (ts : List Token) : Prop where
  last : ∃ front s, ts = front ++ [s] ∧ s.Ends
  carries : ∀ t ∈ ts, t.Carries

namespace Ended

theorem suffix {ts rest : List Token} (h : Ended ts) (hr : rest <:+ ts) (hne : rest ≠ []) :
    Ended rest := by
  obtain ⟨front, s, rfl, hs⟩ := h.last
  refine ⟨?_, fun t ht => h.carries t (hr.subset ht)⟩
  rcases List.suffix_concat_iff.mp hr with rfl | ⟨us, rfl, -⟩
  · exact absurd rfl hne
  · exact ⟨us, s, rfl, hs⟩

theorem ne_nil {ts : List Token} (h : Ended ts) : ts ≠ [] := by
  obtain ⟨front, s, rfl, -⟩ := h.last
  simp

theorem tail {t : Token} {ts : List Token} (h : Ended (t :: ts)) (ht : ¬ t.Ends) : Ended ts := by
  apply h.suffix (List.suffix_cons t ts)
  rintro rfl
  obtain ⟨front, s, hsplit, hs⟩ := h.last
  cases front with
  | nil =>
    obtain rfl := List.singleton_inj.mp hsplit
    exact ht hs
  | cons x xs => simp at hsplit

end Ended

/-- The failure is one that a reader of text can meet, and an error of the grammar is found at the
next token. -/
def Failure.BlamesNext (why : Failure) (rest : List Token) : Prop :=
  match why with
  | .violation e => rest.head? = some e.token
  | .tooDeep => True
  | .outOfTokens | .badLiteral _ => False

/-- A success leaves tokens with a property. A failure leaves some tokens, and an error of the
grammar is found at the first of them. -/
def Reply.Leaves {α : Type} (r : Reply α) (Q : List Token → Prop) : Prop :=
  match r with
  | ⟨.ok _, rest⟩ => Q rest
  | ⟨.error why, rest⟩ => rest ≠ [] ∧ why.BlamesNext rest

namespace Rule

variable {α β : Type} {Q : List Token → Prop}

/-- On tokens with an end the rule stays in front of that end when it fails. When it succeeds the
tokens left have a property. -/
def Keeps (r : Rule α) (Q : List Token → Prop) : Prop :=
  ∀ ⦃ts⦄, Ended ts → (r.run ts).Leaves Q

theorem Keeps.map {r : Rule α} (h : r.Keeps Q) (f : α → β) : (r.map f).Keeps Q := by
  intro ts hts
  have hr := h hts
  simp only [Rule.map, Reply.map]
  cases hrun : r.run ts with
  | mk result rest =>
    rw [hrun] at hr
    cases result with
    | error why => exact hr
    | ok a => exact hr

theorem Keeps.andThen {r : Rule α} {next : α → Rule β} (h : r.Keeps (· ≠ []))
    (hn : ∀ a, (next a).Keeps Q) : (r.andThen next).Keeps Q := by
  intro ts hts
  have hr := h hts
  simp only [Rule.andThen]
  split <;> rename_i hrun <;> rw [hrun] at hr
  · exact hr
  · exact hn _ (hts.suffix (r.suffix hrun) hr)

theorem keeps_onToken {choose : Token → Step α} (hQ : ∀ rest, rest ≠ [] → Q rest)
    (hends : ∀ t, t.Ends → ∃ problem, choose t = .refuse problem)
    (ha : ∀ t why, choose t = .accept (.error why) → t.Carries → why = .tooDeep)
    (hd : ∀ t rule, choose t = .descend rule → rule.Keeps Q) : (onToken choose).Keeps Q := by
  intro ts hts
  cases ts with
  | nil => exact absurd rfl hts.ne_nil
  | cons t ts =>
    have inside (htaken : ∀ problem, choose t ≠ .refuse problem) : Ended ts :=
      hts.tail fun ht => (hends t ht).elim htaken
    simp only [onToken]
    cases hc : choose t with
    | accept result =>
      have hne := (inside (by simp [hc])).ne_nil
      cases result with
      | ok a => exact hQ ts hne
      | error why =>
        obtain rfl := ha t why hc (hts.carries t (by simp))
        exact ⟨hne, trivial⟩
    | descend rule => exact hd t rule hc (inside (by simp [hc]))
    | refuse problem => exact ⟨by simp, rfl⟩

theorem ne_eof_of_isA {t : Token} {k : Kind} (h : t.isA k = true) : t.kind ≠ .eof := by
  intro hk
  simp only [Token.isA, Bool.and_eq_true, decide_eq_true_eq] at h
  exact h.2 (h.1.symm.trans hk)

theorem not_ends_of_isA {t : Token} {k : Kind} (h : t.isA k = true) (hk : k ≠ .semicolon) :
    ¬ t.Ends := by
  rintro (hs | hs)
  · exact hk ((kind_of_isA h).symm.trans hs)
  · exact ne_eof_of_isA h hs

theorem Keeps.branch {taken other : Rule α} {k : Kind} (hk : k ≠ .semicolon)
    (ht : taken.Keeps Q) (ho : other.Keeps Q) : (Rule.branch k taken other).Keeps Q := by
  intro ts hts
  cases ts with
  | nil => exact absurd rfl hts.ne_nil
  | cons t ts =>
    simp only [Rule.branch]
    split
    · rename_i hisA
      exact ht (hts.tail (not_ends_of_isA hisA hk))
    · exact ho hts

theorem keeps_expect {k : Kind} (hk : k ≠ .semicolon) (problem : SyntaxProblem) :
    (expect k problem).Keeps (· ≠ []) := by
  apply keeps_onToken (fun _ h => h)
  · intro t ht
    exact ⟨problem, if_neg fun hisA => not_ends_of_isA hisA hk ht⟩
  · intro t why h
    split at h <;> cases h
  · intro t rule h
    split at h <;> cases h

/-- The end of a statement may be the last token, and then nothing is left. -/
theorem keeps_expect_semicolon (problem : SyntaxProblem) :
    (expect .semicolon problem).Keeps (fun _ => True) := by
  intro ts hts
  cases ts with
  | nil => exact absurd rfl hts.ne_nil
  | cons t ts =>
    by_cases h : t.isA .semicolon = true
    · simp [expect, onToken, h, Reply.Leaves]
    · simp [expect, onToken, h, Reply.Leaves, Failure.BlamesNext]

theorem not_ends_of_binaryAt? {t : Token} {level : Level} {op : Operator BinaryOp}
    (h : t.binaryAt? level = some op) : ¬ t.Ends := by
  obtain ⟨hb, -⟩ := Option.filter_eq_some_iff.mp h
  rintro (hk | hk) <;> simp [Token.binary?, Operator.ofToken?, hk, BinaryOp.ofKind?] at hb

theorem chainFrom_leaves {level : Level} {operand : Rule Expression}
    (h : operand.Keeps (· ≠ [])) (left : Expression) {ts : List Token} (hts : Ended ts) :
    (chainFrom level operand left ts).Leaves (· ≠ []) := by
  fun_induction chainFrom level operand left ts with
  | case1 left => exact absurd rfl hts.ne_nil
  | case2 left t ts => simp [Reply.Leaves]
  | case3 left t ts op hop why rest hfound =>
    have hr := h (hts.tail (not_ends_of_binaryAt? hop))
    rw [hfound] at hr
    exact hr
  | case4 left t ts op hop right rest hfound ih =>
    have hbehind := hts.tail (not_ends_of_binaryAt? hop)
    have hr := h hbehind
    rw [hfound] at hr
    exact ih (hbehind.suffix (operand.suffix hfound) hr)

theorem Keeps.chain {operand : Rule Expression} (h : operand.Keeps (· ≠ [])) (level : Level) :
    (Rule.chain level operand).Keeps (· ≠ []) := by
  intro ts hts
  have hr := h hts
  simp only [Rule.chain]
  split <;> rename_i hfound <;> rw [hfound] at hr
  · exact hr
  · exact chainFrom_leaves h _ (hts.suffix (operand.suffix hfound) hr)

/-- What joining on one level keeps, joining on several levels keeps. -/
theorem joined_of_chain {P : Rule Expression → Prop} {operand : Rule Expression} (h : P operand)
    (hchain : ∀ level r, P r → P (chain level r)) (level : Level) : P (joined operand level) := by
  have hfactor := hchain .factor _ h
  have hterm := hchain .term _ hfactor
  have hcomparison := hchain .comparison _ hterm
  cases level with
  | equality => exact hchain .equality _ hcomparison
  | comparison => exact hcomparison
  | term => exact hterm
  | factor => exact hfactor

theorem joined_keeps {operand : Rule Expression} (h : operand.Keeps (· ≠ [])) (level : Level) :
    (joined operand level).Keeps (· ≠ []) :=
  joined_of_chain (P := fun r => r.Keeps (· ≠ [])) h (fun level _ hr => hr.chain level) level

/-- A reading that does not run out of tokens is not changed by further tokens behind them. -/
def Settles (r : Rule α) : Prop :=
  ∀ ts, (r.run ts).result ≠ .error .outOfTokens →
    ∀ more, r.run (ts ++ more) = ⟨(r.run ts).result, (r.run ts).rest ++ more⟩

theorem Settles.map {r : Rule α} (h : r.Settles) (f : α → β) : (r.map f).Settles := by
  intro ts hne more
  simp only [Rule.map, Reply.map] at hne ⊢
  rw [h ts (fun ho => hne (by rw [ho]; rfl)) more]

theorem Settles.andThen {r : Rule α} {next : α → Rule β} (h : r.Settles)
    (hn : ∀ a, (next a).Settles) : (r.andThen next).Settles := by
  intro ts hne more
  simp only [Rule.andThen] at hne ⊢
  cases hrun : r.run ts with
  | mk result rest =>
    rw [hrun] at hne
    have hmore := h ts (by
      rw [hrun]
      rintro rfl
      exact hne rfl) more
    rw [hrun] at hmore
    rw [hmore]
    cases result with
    | error why => rfl
    | ok a => exact hn a _ hne more

theorem settles_onToken {choose : Token → Step α}
    (hd : ∀ t rule, choose t = .descend rule → rule.Settles) : (onToken choose).Settles := by
  intro ts hne more
  cases ts with
  | nil => exact absurd rfl hne
  | cons t ts =>
    simp only [onToken, List.cons_append] at hne ⊢
    cases hc : choose t with
    | accept result => rfl
    | descend rule =>
      simp only [hc] at hne
      exact hd t rule hc _ hne more
    | refuse problem => rfl

theorem settles_expect (k : Kind) (problem : SyntaxProblem) : (expect k problem).Settles := by
  apply settles_onToken
  intro t rule h
  split at h <;> cases h

theorem Settles.branch {taken other : Rule α} (ht : taken.Settles) (ho : other.Settles)
    (k : Kind) : (Rule.branch k taken other).Settles := by
  intro ts hne more
  cases ts with
  | nil => exact absurd rfl hne
  | cons t ts =>
    simp only [Rule.branch, List.cons_append] at hne ⊢
    split <;> rename_i hisA
    · rw [if_pos hisA] at hne
      exact ht _ hne more
    · rw [if_neg hisA] at hne
      exact ho _ hne more

theorem chainFrom_settles {level : Level} {operand : Rule Expression} (h : operand.Settles)
    (left : Expression) {ts : List Token}
    (hne : (chainFrom level operand left ts).result ≠ .error .outOfTokens) (more : List Token) :
    chainFrom level operand left (ts ++ more) =
      ⟨(chainFrom level operand left ts).result,
        (chainFrom level operand left ts).rest ++ more⟩ := by
  fun_induction chainFrom level operand left ts with
  | case1 left => exact absurd rfl hne
  | case2 left t ts hop =>
    rw [List.cons_append, chainFrom]
    simp only [hop]
  | case3 left t ts op hop why rest hfound =>
    have hmore := h ts (by rw [hfound]; exact hne) more
    rw [hfound] at hmore
    rw [List.cons_append, chainFrom]
    simp only [hop]
    split <;> rename_i hsplit <;> cases hmore.symm.trans hsplit
    rfl
  | case4 left t ts op hop right rest hfound ih =>
    have hmore := h ts (by rw [hfound]; exact fun hb => by cases hb) more
    rw [hfound] at hmore
    rw [List.cons_append, chainFrom]
    simp only [hop]
    split <;> rename_i hsplit <;> cases hmore.symm.trans hsplit
    exact ih hne

theorem Settles.chain {operand : Rule Expression} (h : operand.Settles) (level : Level) :
    (Rule.chain level operand).Settles := by
  intro ts hne more
  simp only [Rule.chain] at hne ⊢
  cases hrun : operand.run ts with
  | mk result rest =>
    rw [hrun] at hne
    have hmore := h ts (by
      rw [hrun]
      rintro rfl
      exact hne rfl) more
    rw [hrun] at hmore
    rw [hmore]
    cases result with
    | error why => rfl
    | ok left => exact chainFrom_settles h left hne more

theorem joined_settles {operand : Rule Expression} (h : operand.Settles) (level : Level) :
    (joined operand level).Settles :=
  joined_of_chain (P := Settles) h (fun level _ hr => hr.chain level) level

end Rule

namespace Grammar
open Rule

theorem primaryStep_refuses {inner : Unit → Option (Rule Expression)} {t : Token} (ht : t.Ends) :
    primaryStep inner t = .refuse .expectExpression := by
  rcases ht with hk | hk <;> simp [primaryStep, hk]

theorem unary?_of_ends {t : Token} (ht : t.Ends) : t.unary? = none := by
  rcases ht with hk | hk <;> simp [Token.unary?, Operator.ofToken?, UnaryOp.ofKind?, hk]

theorem literalOf_ne_error {t : Token} (hk : t.kind = .number ∨ t.kind = .string)
    (hc : t.Carries) (why : Failure) : literalOf t ≠ .error why := by
  rcases hk with hk | hk
  · obtain ⟨x, hd⟩ := hc.1 hk
    simp [literalOf, hd, Datum.value?]
  · obtain ⟨s, hd⟩ := hc.2 hk
    simp [literalOf, hd, Datum.value?]

theorem eq_tooDeep_of_accept {inner : Unit → Option (Rule Expression)} {t : Token}
    {why : Failure} (h : primaryStep inner t = .accept (.error why)) (hc : t.Carries) :
    why = .tooDeep := by
  unfold primaryStep at h
  split at h <;> try cases h
  case h_4 hk => exact absurd (Step.accept.inj h) (literalOf_ne_error (.inl hk) hc why)
  case h_5 hk => exact absurd (Step.accept.inj h) (literalOf_ne_error (.inr hk) hc why)
  case h_7 => split at h <;> cases h; rfl

theorem unary_keeps (budget : Nat) : (unary budget).Keeps (· ≠ []) := by
  induction budget using Nat.strongRecOn with
  | _ budget ih =>
    rw [unary_eq]
    apply keeps_onToken (fun _ h => h)
    · intro t ht
      exact ⟨.expectExpression, by simp [unaryStep, unary?_of_ends ht, primaryStep_refuses ht]⟩
    · intro t why h hc
      rcases unaryStep_accept h with herr | ⟨inner, h⟩
      · exact Except.error.inj herr
      · exact eq_tooDeep_of_accept h hc
    · intro t rule h
      -- An operator and a group both leave less nesting to what is inside.
      rcases unaryStep_descend h with ⟨op, rfl, hb, rfl⟩ | ⟨hk, hb, rfl⟩
      · exact (ih (budget - 1) (by omega)).map _
      · have hcost : 0 < groupCost := by decide
        have hinner := joined_keeps (ih (budget - groupCost) (by omega)) .equality
        exact hinner.andThen fun e => (keeps_expect (by decide) _).map _

theorem unary_settles (budget : Nat) : (unary budget).Settles := by
  induction budget using Nat.strongRecOn with
  | _ budget ih =>
    rw [unary_eq]
    apply settles_onToken
    intro t rule h
    rcases unaryStep_descend h with ⟨op, rfl, hb, rfl⟩ | ⟨hk, hb, rfl⟩
    · exact (ih (budget - 1) (by omega)).map _
    · have hcost : 0 < groupCost := by decide
      have hinner := joined_settles (ih (budget - groupCost) (by omega)) .equality
      exact hinner.andThen fun e => (settles_expect _ _).map _

theorem expression_keeps : expression.Keeps (· ≠ []) := joined_keeps (unary_keeps _) .equality

theorem expression_settles : expression.Settles := joined_settles (unary_settles _) .equality

/-- Reading a statement stays on its tokens: it fails in front of the end of the statement, if it
fails. -/
theorem statement_keeps : statement.Keeps (fun _ => True) := by
  have hend (problem : SyntaxProblem) : (semicolon problem).Keeps (fun _ => True) :=
    keeps_expect_semicolon problem
  apply Keeps.branch (by decide)
  · apply (keeps_expect (by decide) _).andThen
    intro name
    apply Keeps.branch (by decide)
    · exact expression_keeps.andThen fun e => (hend _).map _
    · exact (hend _).map _
  · apply Keeps.branch (by decide)
    · exact expression_keeps.andThen fun e => (hend _).map _
    · exact expression_keeps.andThen fun e => (hend _).map _

theorem statement_settles : statement.Settles := by
  have hend (problem : SyntaxProblem) : (semicolon problem).Settles := settles_expect _ _
  refine Settles.branch ?_ (Settles.branch ?_ ?_ _) _
  · refine (settles_expect _ _).andThen fun name => Settles.branch ?_ ?_ _
    · exact expression_settles.andThen fun e => (hend _).map _
    · exact (hend _).map _
  · exact expression_settles.andThen fun e => (hend _).map _
  · exact expression_settles.andThen fun e => (hend _).map _

end Grammar

end ExprScript
