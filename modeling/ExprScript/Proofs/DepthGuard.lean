import ExprScript.Proofs.EvaluationOrder

namespace ExprScript

theorem head?_toList_append {s : String} {c : Char} (h : s.toList.head? = some c) (t : String) :
    (s ++ t).toList.head? = some c := by
  rw [String.toList_append, List.head?_append, h, Option.some_or]

theorem Cause.message_eq_tooDeep_iff {cause : Cause} :
    cause.message = "Expression too deeply nested." ↔ cause = .tooDeep := by
  constructor
  · intro h
    -- The messages with a name in them differ from this one in their first characters.
    have hfirst : cause.message.toList.head? = some 'E' := by rw [h]; decide +kernel
    cases cause with
    | tooDeep => rfl
    | undefined name =>
      have hother : (message (.undefined name)).toList.head? = some 'U' :=
        head?_toList_append (head?_toList_append (by decide +kernel) name) _
      rw [hother] at hfirst
      exact absurd hfirst (by decide)
    | operandsNotNumbers operator =>
      have hother : (message (.operandsNotNumbers operator)).toList.head? = some 'O' :=
        head?_toList_append (head?_toList_append (by decide +kernel) operator) _
      rw [hother] at hfirst
      exact absurd hfirst (by decide)
    | operandNotNumber | operandsNotAddable | divisionByZero =>
      exact absurd h (by decide +kernel)
  · rintro rfl
    rfl

namespace Expression

variable {e n : Expression} {b : Bindings}

theorem IsAtFault.cause_ne {err : RuntimeError} (h : IsAtFault b n err) : err.cause ≠ .tooDeep := by
  cases h with
  | operands hv hw h =>
    simp only [BinaryOp.complaint]
    split <;> nofun
  | _ => nofun

/-- The token of the expression's own node: its operator or its name. -/
def ownToken? : Expression → Option Token
  | .literal _ | .group _ => none
  | .unary op _ => some op.unaryToken
  | .binary _ op _ => some op.binaryToken
  | .variable name => some name

theorem eq_groups_ungrouped (e : Expression) : ∃ count, e = group^[count] e.ungrouped := by
  induction e with
  | group inner ih =>
    obtain ⟨count, hcount⟩ := ih
    refine ⟨count + 1, ?_⟩
    rw [Function.iterate_succ_apply', ungrouped, ← hcount]
  | _ => exact ⟨0, rfl⟩

theorem ungrouped_ne_group (e inner : Expression) : e.ungrouped ≠ .group inner := by
  induction e with
  | group inner ih => exact ih
  | _ => nofun

theorem ungrouped_groups (count : Nat) (e : Expression) :
    (group^[count] e).ungrouped = e.ungrouped := by
  induction count with
  | zero => rfl
  | succ count ih => rw [Function.iterate_succ_apply', ungrouped, ih]

theorem height_groups (count : Nat) (e : Expression) :
    (group^[count] e).height = e.height + count := by
  induction count with
  | zero => rfl
  | succ count ih => rw [Function.iterate_succ_apply', height, ih, Nat.add_assoc]

theorem token?_eq (e : Expression) : e.token? = e.ungrouped.ownToken? := by
  rw [token?]
  cases h : e.ungrouped with
  | group inner => exact absurd h (e.ungrouped_ne_group inner)
  | _ => rfl

/-- No token is to be pointed at just in literals, whatever groups are around them. -/
theorem token?_eq_none_iff : e.token? = none ↔ ∃ count v, e = group^[count] (.literal v) := by
  constructor
  · intro h
    obtain ⟨count, hcount⟩ := e.eq_groups_ungrouped
    rw [token?_eq] at h
    cases hcore : e.ungrouped with
    | literal v =>
      rw [hcore] at hcount
      exact ⟨count, v, hcount⟩
    | group inner => exact absurd hcore (e.ungrouped_ne_group inner)
    | _ =>
      rw [hcore] at h
      cases h
  · rintro ⟨count, v, rfl⟩
    rw [token?_eq, ungrouped_groups]
    rfl

end Expression

namespace Statement

open Expression

variable {s : Statement} {e : Expression} {b : Bindings} {why : RuntimeError}

/-- A statement with an expression fails as the expression does. -/
theorem execute_error_iff (he : e ∈ s.expression?) :
    s.execute b = .error why ↔ s.valueOf e b = .error why := by
  match s with
  | .expression f | .print f | .declare _ (some f) =>
    cases he
    rw [execute]
    constructor
    · intro h
      cases hvalue : valueOf _ e b with
      | ok v =>
        rw [hvalue] at h
        cases h
      | error cause =>
        rw [hvalue] at h
        cases h
        rfl
    · intro h
      rw [h]
      rfl
  | .declare _ none => cases he

/-- A statement fails because of the first node at fault in its expression, or because the
expression is too high. -/
theorem execute_error (h : s.execute b = .error why) :
    ∃ e ∈ s.expression?, FirstFault b e.nodes why ∨
      (evaluationLimit < e.height ∧ why = ⟨s.token?, .tooDeep⟩) := by
  cases he : s.expression? with
  | none =>
    match s with
    | .declare name none => cases h
  | some e =>
    refine ⟨e, rfl, ?_⟩
    have haccounts := evaluate_accounts b e
    rw [execute_error_iff he, valueOf] at h
    cases hvalue : e.evaluate b with
    | ok v =>
      rw [hvalue] at h
      cases h
    | error halt =>
      rw [hvalue] at h haccounts
      cases halt with
      | error err =>
        cases h
        exact .inl haccounts
      | tooDeep =>
        cases h
        exact .inr ⟨haccounts, rfl⟩

theorem height_le_of_execute {done : Effect} (h : s.execute b = .ok done)
    (he : e ∈ s.expression?) : e.height ≤ evaluationLimit := by
  have haccounts := evaluate_accounts b e
  cases hvalue : e.evaluate b with
  | ok v =>
    rw [hvalue] at haccounts
    exact haccounts.1
  | error halt =>
    have hfails : ∃ cause, s.valueOf e b = .error cause := by
      rw [valueOf, hvalue]
      cases halt <;> exact ⟨_, rfl⟩
    obtain ⟨cause, hcause⟩ := hfails
    rw [(execute_error_iff he).mpr hcause] at h
    cases h

theorem eq_of_message (h : s.execute b = .error why)
    (hmessage : why.message = "Expression too deeply nested.") :
    why = ⟨s.token?, .tooDeep⟩ ∧ ∃ e ∈ s.expression?, evaluationLimit < e.height := by
  obtain ⟨e, he, ⟨before, node, after, -, hfault, -⟩ | ⟨hhigh, rfl⟩⟩ := execute_error h
  · exact absurd (Cause.message_eq_tooDeep_iff.mp hmessage) hfault.cause_ne
  · exact ⟨rfl, e, he, hhigh⟩

/-- Just the statements whose expression is too high are refused as too deeply nested. With an
expression of at most the limit that error is not returned. With a higher one the statement does
nothing, and the error is that one unless a node which comes before is at fault. It points at the
name that is declared, else at the outermost node that is no group, and at nothing if and only if
that is a literal. -/
theorem depth_guard_exact (s : Statement) (b : Bindings) :
    (s.IsEvaluable → ∀ why, (run b [s]).error = some why →
      why.message ≠ "Expression too deeply nested.") ∧
    (∀ e ∈ s.expression?, evaluationLimit < e.height → ∃ why, run b [s] = ⟨"", b, some why⟩ ∧
      (why = ⟨s.token?, .tooDeep⟩ ∨ FirstFault b e.nodes why)) ∧
    ∀ why, (run b [s]).error = some why → why.message = "Expression too deeply nested." →
      (∀ name initial, s = .declare name initial → why.token = some name) ∧
      (∀ e, s = .expression e ∨ s = .print e → ∃ count core, e = group^[count] core ∧
        (∀ inner, core ≠ .group inner) ∧ why.token = core.ownToken?) ∧
      (why.token = none ↔ ∃ count v, s = .expression (group^[count] (.literal v)) ∨
        s = .print (group^[count] (.literal v))) := by
  have hfails {why : RuntimeError} (h : (run b [s]).error = some why) :
      s.execute b = .error why := by
    cases hs : s.execute b with
    | ok done =>
      rw [run_cons_ok hs] at h
      cases h
    | error cause =>
      rw [run_cons_error hs] at h
      rw [Option.some.inj h]
  refine ⟨fun hlow why hwhy hmessage => ?_, fun e he hhigh => ?_, fun why hwhy hmessage => ?_⟩
  · obtain ⟨-, e, he, hhigh⟩ := eq_of_message (hfails hwhy) hmessage
    exact absurd (hlow e he) (Nat.not_le.mpr hhigh)
  · cases hs : s.execute b with
    | ok done => exact absurd (height_le_of_execute hs he) (Nat.not_le.mpr hhigh)
    | error why =>
      refine ⟨why, run_cons_error hs [], ?_⟩
      obtain ⟨f, hf, hfault | ⟨-, rfl⟩⟩ := execute_error hs
      · obtain rfl := Option.mem_unique he hf
        exact .inr hfault
      · exact .inl rfl
  · obtain ⟨rfl, -⟩ := eq_of_message (hfails hwhy) hmessage
    refine ⟨?_, ?_, ?_⟩
    · rintro name initial rfl
      rfl
    · intro e he
      obtain ⟨count, hcount⟩ := e.eq_groups_ungrouped
      refine ⟨count, e.ungrouped, hcount, e.ungrouped_ne_group, ?_⟩
      rw [← e.token?_eq]
      rcases he with rfl | rfl <;> rfl
    · cases s with
      | expression e | print e => simp [token?, token?_eq_none_iff]
      | declare name initial => simp [token?]

/-- Groups around a literal are refused when there is one more than fits, with no token to point
at. A name without a value in front of them is reported instead. -/
theorem depth_guard_exact_groups :
    let groups : Nat → Expression := fun count => group^[count] (.literal .nil)
    let low : Statement := .print (groups 329)
    let high : Statement := .print (groups 330)
    let x : Token := ⟨.identifier, "x", .nil, 1⟩
    let minus : Operator BinaryOp := ⟨.subtract, "-", .nil, 1⟩
    let behind : Expression := .binary (.variable x) minus (groups 330)
    let b := Bindings.empty
    (low.IsEvaluable ∧ ∀ why, (run b [low]).error = some why →
      why.message ≠ "Expression too deeply nested.") ∧
    (run b [high]).error = some ⟨none, .tooDeep⟩ ∧
    (∃ count v, high = .expression (group^[count] (.literal v)) ∨
      high = .print (group^[count] (.literal v))) ∧
    evaluationLimit < behind.height ∧
    ∃ why, run b [.declare x (some behind)] = ⟨"", b, some why⟩ ∧
      why = ⟨some x, .undefined "x"⟩ := by
  intro groups low high x minus behind b
  have hlow : low.IsEvaluable := by
    intro e he
    cases he
    exact (height_groups 329 _).le
  have hbehind : evaluationLimit < behind.height := by
    have hheight : (groups 330).height = 331 := height_groups 330 _
    rw [show behind.height = max 1 (groups 330).height + 1 from rfl, hheight]
    decide
  have herror : (run b [high]).error = some ⟨none, .tooDeep⟩ := by decide +kernel
  obtain ⟨-, -, hnone⟩ := ((depth_guard_exact high b).2.2 _ herror rfl)
  obtain ⟨why, hrun, -⟩ := (depth_guard_exact (.declare x (some behind)) b).2.1 behind rfl hbehind
  refine ⟨⟨hlow, (depth_guard_exact low b).1 hlow⟩, herror, hnone.mp rfl, hbehind, why, hrun, ?_⟩
  have hname : (run b [.declare x (some behind)]).error = some ⟨some x, .undefined "x"⟩ := by
    decide +kernel
  rw [hrun] at hname
  exact Option.some.inj hname

end Statement

end ExprScript
