import ExprScript.Execution
import ExprScript.Proofs.Division
import ExprScript.Proofs.SourceTree

namespace ExprScript

/-- What a reader of an error sees: the lexeme it points at and the cause. -/
def RuntimeError.gist (e : RuntimeError) : Option String × Cause :=
  (e.token.map Token.lexeme, e.cause)

/-- The result of an operator or a name at its token. -/
def resultAt (t : Token) : Except Cause Value → Except RuntimeError Value
  | .ok v => .ok v
  | .error cause => .error ⟨some t, cause⟩

namespace Expression

/-- The value of an expression, however high it is. -/
def value (b : Bindings) : Expression → Except RuntimeError Value
  | .literal v => .ok v
  | .group inner => inner.value b
  | .unary op operand => do
    let v ← operand.value b
    resultAt op.unaryToken (op.op.apply v)
  | .binary left op right => do
    let v ← left.value b
    let w ← right.value b
    resultAt op.binaryToken (op.op.apply op.lexeme v w)
  | .variable name => b.fetch name

theorem located_eq (t : Token) (r : Except Cause Value) :
    located t r = (resultAt t r).mapError .error := by
  cases r <;> rfl

theorem mapError_bind {α β ε δ : Type} (g : ε → δ) (x : Except ε α) (f : α → Except ε β) :
    (x >>= f).mapError g = x.mapError g >>= fun a => (f a).mapError g := by
  cases x <;> rfl

/-- Evaluation that goes down far enough finds the value. -/
theorem evaluateWithin_eq {e : Expression} (b : Bindings) {depth : Nat} (h : e.height ≤ depth) :
    e.evaluateWithin b depth = (e.value b).mapError .error := by
  obtain ⟨depth, rfl⟩ := exists_eq_succ_of_height_le h
  induction e generalizing depth with
  | literal v => rfl
  | group inner ih =>
    have hinner : inner.height ≤ depth := Nat.le_of_succ_le_succ h
    obtain ⟨depth, rfl⟩ := exists_eq_succ_of_height_le hinner
    exact ih depth hinner
  | unary op operand ih =>
    have hoperand : operand.height ≤ depth := Nat.le_of_succ_le_succ h
    obtain ⟨depth, rfl⟩ := exists_eq_succ_of_height_le hoperand
    rw [evaluateWithin, value, ih depth hoperand, mapError_bind]
    simp only [located_eq]
  | binary left op right ihl ihr =>
    have hboth : max left.height right.height ≤ depth := Nat.le_of_succ_le_succ h
    obtain ⟨hleft, hright⟩ := Nat.max_le.mp hboth
    obtain ⟨depth, rfl⟩ := exists_eq_succ_of_height_le hleft
    rw [evaluateWithin, value, ihl depth hleft, ihr depth hright, mapError_bind]
    simp only [mapError_bind, located_eq]
  | «variable» name => rfl

/-- What can be seen of an evaluation. -/
def gist (b : Bindings) (e : Expression) : Except (Option String × Cause) Value :=
  (e.value b).mapError RuntimeError.gist

theorem gist_eq_ok {b : Bindings} {e : Expression} {v : Value} :
    e.gist b = .ok v ↔ e.value b = .ok v := by
  rw [gist]
  cases e.value b <;> simp [Except.mapError]

variable (b : Bindings)

theorem gist_unary (op : Operator UnaryOp) (operand : Expression) :
    (unary op operand).gist b = operand.gist b >>= fun v =>
      (op.op.apply v).mapError fun cause => (some op.lexeme, cause) := by
  rw [gist, value, mapError_bind]
  congr 1
  funext v
  cases op.op.apply v <;> rfl

theorem gist_binary (left : Expression) (op : Operator BinaryOp) (right : Expression) :
    (binary left op right).gist b = left.gist b >>= fun v => right.gist b >>= fun w =>
      (op.op.apply op.lexeme v w).mapError fun cause => (some op.lexeme, cause) := by
  rw [gist, value, mapError_bind]
  simp only [mapError_bind]
  congr 1
  funext v
  congr 1
  funext w
  cases op.op.apply op.lexeme v w <;> rfl

theorem gist_variable (name : Token) :
    (Expression.variable name).gist b = match b.get? name.lexeme with
      | some v => .ok v
      | none => .error (some name.lexeme, .undefined name.lexeme) := by
  rw [gist, value, Bindings.fetch]
  cases b.get? name.lexeme <;> rfl

/-- The lines of the tokens do not matter. -/
theorem gist_unplaced (e : Expression) : e.unplaced.gist b = e.gist b := by
  induction e with
  | literal v => rfl
  | group inner ih => exact ih
  | unary op operand ih =>
    rw [unplaced, gist_unary, ih, gist_unary]
    rfl
  | binary left op right ihl ihr =>
    rw [unplaced, gist_binary, ihl, ihr, gist_binary]
    rfl
  | «variable» name =>
    rw [unplaced, gist_variable, gist_variable]
    rfl

/-- A quotient of expressions that have numbers as their values. -/
theorem value_divide {left right : Expression} {x y : Float}
    (hl : left.value b = .ok (.number x)) (hr : right.value b = .ok (.number y)) :
    (binary left BinaryOp.divide.spelled right).value b = .ok (.number (x / y)) := by
  rw [value, hl, hr]
  change resultAt _ (BinaryOp.divide.apply _ (.number x) (.number y)) = _
  rw [BinaryOp.apply_divide]
  rfl

/-- The tree of the source text of a number has that number as its value. -/
theorem value_sourceTree (x : Float) : (Number.sourceTree x).value b = .ok (.number x) := by
  -- What the divisions of the source text give is computed from the bits.
  have hdivide : Number.zero / Number.zero = Number.notANumber := by decide +kernel
  have hpositive : Number.one / Number.zero = Number.infinity := by decide +kernel
  have hnegative : -Number.one / Number.zero = -Number.infinity := by decide +kernel
  unfold Number.sourceTree
  split
  · rename_i hnan
    rw [Number.eq_notANumber hnan, ← hdivide]
    exact value_divide b rfl rfl
  · rename_i hnan
    have hnan : x.isNaN = false := Bool.eq_false_iff.mpr hnan
    split
    · rename_i hinf
      have hx := Number.eq_infinity hinf
      split
      · rename_i hs
        rw [if_pos hs, ← hnegative] at hx
        rw [hx]
        exact value_divide b rfl rfl
      · rename_i hs
        rw [if_neg hs, ← hpositive] at hx
        rw [hx]
        exact value_divide b rfl rfl
    · split
      · rename_i hs
        have hx := Number.neg_unsigned hnan hs
        change Except.ok (Value.number (-Number.unsigned x)) = _
        rw [hx]
      · rename_i hs
        rw [Number.unsigned_eq_self hnan (Bool.eq_false_iff.mpr hs)]
        rfl

/-- The tree of the source text of an expression is evaluated as the expression is. -/
theorem gist_sourceTree {e : Expression} (hw : e.WellSpelled) : e.sourceTree.gist b = e.gist b := by
  induction e with
  | literal v =>
    cases v with
    | number x =>
      rw [gist, sourceTree, value_sourceTree]
      rfl
    | _ => rfl
  | group inner ih => exact ih hw
  | unary op operand ih =>
    obtain ⟨hop, hw⟩ := hw
    change (unary op.op.spelled operand.sourceTree).gist b = _
    rw [gist_unary, ih hw, gist_unary, hop]
    rfl
  | binary left op right ihl ihr =>
    obtain ⟨hwl, hop, hwr⟩ := hw
    change (binary left.sourceTree op.op.spelled right.sourceTree).gist b = _
    rw [gist_binary, ihl hwl, ihr hwr, gist_binary, hop]
    rfl
  | «variable» name =>
    rw [sourceTree, gist_variable, gist_variable]
    rfl

end Expression

namespace Statement

/-- The statement's expression is low enough to be evaluated. -/
def IsEvaluable (s : Statement) : Prop := ∀ e ∈ s.expression?, e.height ≤ Expression.evaluationLimit

/-- What can be seen of the execution of a statement. -/
def gist (b : Bindings) (s : Statement) : Except (Option String × Cause) Effect :=
  (s.execute b).mapError RuntimeError.gist

theorem valueOf_eq (s : Statement) {e : Expression} (h : e.height ≤ Expression.evaluationLimit)
    (b : Bindings) : s.valueOf e b = e.value b := by
  rw [valueOf, Expression.evaluate, Expression.evaluateWithin_eq b h]
  cases e.value b <;> rfl

/-- Statements of the same form do the same if their expressions have the same gist. -/
theorem gist_of_valueOf {s r : Statement} {b : Bindings} {e f : Expression}
    (hs : e.height ≤ Expression.evaluationLimit) (hr : f.height ≤ Expression.evaluationLimit)
    (h : f.gist b = e.gist b) (effect : Value → Effect)
    (hes : s.execute b = s.valueOf e b >>= fun v => .ok (effect v))
    (her : r.execute b = r.valueOf f b >>= fun v => .ok (effect v)) : r.gist b = s.gist b := by
  unfold gist
  rw [hes, her, valueOf_eq s hs, valueOf_eq r hr, Expression.mapError_bind,
    Expression.mapError_bind]
  exact congrArg (· >>= _) h

/-- A statement that was read from the source text of another is executed as that one is. -/
theorem gist_of_sourceTree {s r : Statement} (hw : s.WellSpelled) (hs : s.IsEvaluable)
    (hr : r.IsEvaluable) (h : r.unplaced = s.sourceTree) (b : Bindings) : r.gist b = s.gist b := by
  have hgist {e f : Expression} (hwe : e.WellSpelled) (hfe : f.unplaced = e.sourceTree) :
      f.gist b = e.gist b := by
    rw [← f.gist_unplaced, hfe, Expression.gist_sourceTree b hwe]
  cases s with
  | expression e =>
    cases r with
    | expression f =>
      have hfe := Statement.expression.inj h
      exact gist_of_valueOf (hs e rfl) (hr f rfl) (hgist hw hfe) (fun _ => ⟨"", b⟩) rfl rfl
    | _ => cases h
  | print e =>
    cases r with
    | print f =>
      have hfe := Statement.print.inj h
      exact gist_of_valueOf (hs e rfl) (hr f rfl) (hgist hw hfe)
        (fun v => ⟨v.display ++ "\n", b⟩) rfl rfl
    | _ => cases h
  | declare name initial =>
    cases r with
    | declare other given =>
      obtain ⟨hname, hinitial⟩ := Statement.declare.inj h
      have hlexeme : other.lexeme = name.lexeme := by
        have heq := congrArg Token.lexeme hname
        exact heq
      cases initial with
      | none =>
        obtain rfl := Option.map_eq_none_iff.mp hinitial
        simp only [gist, execute, hlexeme]
      | some e =>
        obtain ⟨f, rfl, hfe⟩ := Option.map_eq_some_iff.mp hinitial
        refine gist_of_valueOf (hs e rfl) (hr f rfl) (hgist (hw.2 e rfl) hfe)
          (fun v => ⟨"", b.define name.lexeme v⟩) rfl ?_
        rw [execute, hlexeme]
        rfl
    | _ => cases h

end Statement

/-- What a reader of a run sees: its output, its bindings and the gist of its error. -/
structure Run.Alike (first second : Run) : Prop where
  output : first.output = second.output
  bindings : first.bindings = second.bindings
  error : first.error.map RuntimeError.gist = second.error.map RuntimeError.gist

theorem execute_of_gist {r s : Statement} {b : Bindings} (h : r.gist b = s.gist b) :
    (∃ done, r.execute b = .ok done ∧ s.execute b = .ok done) ∨
      ∃ why cause, r.execute b = .error why ∧ s.execute b = .error cause ∧
        why.gist = cause.gist := by
  unfold Statement.gist at h
  cases hr : r.execute b with
  | ok done =>
    cases hs : s.execute b with
    | ok other =>
      rw [hr, hs] at h
      obtain rfl := Except.ok.inj h
      exact .inl ⟨done, rfl, rfl⟩
    | error cause =>
      rw [hr, hs] at h
      cases h
  | error why =>
    cases hs : s.execute b with
    | ok other =>
      rw [hr, hs] at h
      cases h
    | error cause =>
      rw [hr, hs] at h
      exact .inr ⟨why, cause, rfl, rfl, Except.error.inj h⟩

/-- Statements that were read from source texts run as the statements of these texts do. -/
theorem run_alike {rs ss : List Statement} (hw : ∀ s ∈ ss, s.WellSpelled)
    (hs : ∀ s ∈ ss, s.IsEvaluable) (hr : ∀ r ∈ rs, r.IsEvaluable)
    (h : rs.map Statement.unplaced = ss.map Statement.sourceTree) (b : Bindings) :
    (run b rs).Alike (run b ss) := by
  induction ss generalizing rs b with
  | nil =>
    obtain rfl := List.map_eq_nil_iff.mp h
    exact ⟨rfl, rfl, rfl⟩
  | cons s ss ih =>
    obtain ⟨r, rs, rfl, hrs, hothers⟩ := List.map_eq_cons_iff.mp h
    obtain ⟨hws, hwss⟩ := List.forall_mem_cons.mp hw
    obtain ⟨hes, hess⟩ := List.forall_mem_cons.mp hs
    obtain ⟨her, hers⟩ := List.forall_mem_cons.mp hr
    have hgist := Statement.gist_of_sourceTree hws hes her hrs b
    rcases execute_of_gist hgist with ⟨done, hr, hs⟩ | ⟨why, cause, hr, hs, hwhy⟩
    · have hrest := ih hwss hess hers hothers done.bindings
      simp only [run, hr, hs]
      exact ⟨congrArg (done.output ++ ·) hrest.output, hrest.bindings, hrest.error⟩
    · simp only [run, hr, hs]
      exact ⟨rfl, rfl, congrArg some hwhy⟩

end ExprScript
