import ExprScript.Proofs.ValueTypes

namespace ExprScript

/-- The operator is for values of the type. -/
def UnaryOp.Suits (op : UnaryOp) (τ : ValueType) : Prop := op = .not ∨ τ = .number

namespace BinaryOp

/-- The operator is for values of the types. -/
def Suits (op : BinaryOp) (τ υ : ValueType) : Prop :=
  op = .equal ∨ op = .notEqual ∨ (τ = .number ∧ υ = .number) ∨
    (op = .add ∧ τ = .text ∧ υ = .text)

/-- What is wrong with values that the operator is not for. -/
def complaint (op : BinaryOp) (lexeme : String) : Cause :=
  if op = .add then .operandsNotAddable else .operandsNotNumbers lexeme

end BinaryOp

theorem UnaryOp.apply_error {op : UnaryOp} {v : Value} {cause : Cause}
    (h : op.apply v = .error cause) : ¬ op.Suits v.type ∧ cause = .operandNotNumber := by
  constructor
  · intro hsuits
    obtain ⟨u, hu⟩ := (op.apply_ok_iff v).mpr hsuits
    rw [hu] at h
    cases h
  · cases op <;> cases v <;> cases h <;> rfl

theorem UnaryOp.apply_of_not_suits {op : UnaryOp} {v : Value} (h : ¬ op.Suits v.type) :
    op.apply v = .error .operandNotNumber := by
  cases happly : op.apply v with
  | ok u => exact absurd ((op.apply_ok_iff v).mp ⟨u, happly⟩) h
  | error cause => rw [(apply_error happly).2]

theorem BinaryOp.apply_error {op : BinaryOp} {lexeme : String} {v w : Value} {cause : Cause}
    (h : op.apply lexeme v w = .error cause) :
    ¬ op.Suits v.type w.type ∧ cause = op.complaint lexeme := by
  constructor
  · intro hsuits
    obtain ⟨u, hu⟩ := (op.apply_ok_iff lexeme v w).mpr hsuits
    rw [hu] at h
    cases h
  · cases op with
    | divide =>
      cases v with
      | number x =>
        cases w with
        | number y =>
          rw [apply_divide] at h
          cases h
        | _ => cases h; rfl
      | _ => cases h; rfl
    | _ => cases v <;> cases w <;> cases h <;> rfl

theorem BinaryOp.apply_of_not_suits {op : BinaryOp} {v w : Value} (lexeme : String)
    (h : ¬ op.Suits v.type w.type) : op.apply lexeme v w = .error (op.complaint lexeme) := by
  cases happly : op.apply lexeme v w with
  | ok u => exact absurd ((op.apply_ok_iff lexeme v w).mp ⟨u, happly⟩) h
  | error cause => rw [(apply_error happly).2]

theorem exists_of_located {t : Token} {r : Except Cause Value} {halt : Halt}
    (h : located t r = .error halt) :
    ∃ cause, r = .error cause ∧ halt = .error ⟨some t, cause⟩ := by
  cases r with
  | ok v => cases h
  | error cause =>
    cases h
    exact ⟨cause, rfl, rfl⟩

namespace Expression

/-- The nodes of an expression from left to right, each behind its operands. -/
def nodes : Expression → List Expression
  | .literal v => [.literal v]
  | .group inner => inner.nodes ++ [.group inner]
  | .unary op operand => operand.nodes ++ [.unary op operand]
  | .binary left op right => left.nodes ++ right.nodes ++ [.binary left op right]
  | .variable name => [.variable name]

variable {e n : Expression} {b : Bindings}

theorem height_le_of_mem_nodes (h : n ∈ e.nodes) : n.height ≤ e.height := by
  induction e with
  | literal v | «variable» name =>
    rw [List.mem_singleton.mp h]
  | group inner ih =>
    rcases List.mem_append.mp h with h | h
    · exact (ih h).trans (Nat.le_succ _)
    · rw [List.mem_singleton.mp h]
  | unary op operand ih =>
    rcases List.mem_append.mp h with h | h
    · exact (ih h).trans (Nat.le_succ _)
    · rw [List.mem_singleton.mp h]
  | binary left op right ihl ihr =>
    rcases List.mem_append.mp h with h | h
    · have hboth : n.height ≤ max left.height right.height := by
        rcases List.mem_append.mp h with h | h
        · exact (ihl h).trans (Nat.le_max_left _ _)
        · exact (ihr h).trans (Nat.le_max_right _ _)
      exact hboth.trans (Nat.le_succ _)
    · rw [List.mem_singleton.mp h]

theorem evaluate_eq (h : e.height ≤ evaluationLimit) (b : Bindings) :
    e.evaluate b = (e.value b).mapError .error :=
  evaluateWithin_eq b h

/-- Going down far enough and no farther than evaluation may is all that evaluation does. -/
theorem evaluate_of_within {depth : Nat} (h : e.height ≤ depth) (hd : depth ≤ evaluationLimit)
    (b : Bindings) : e.evaluate b = e.evaluateWithin b depth := by
  rw [evaluate_eq (h.trans hd), evaluateWithin_eq b h]

/-- The node itself is at fault: nothing is bound to its name, or its operands have values that its
operator is not for. -/
inductive IsAtFault (b : Bindings) : Expression → RuntimeError → Prop where
  | unbound {name : Token} (h : b.get? name.lexeme = none) :
    IsAtFault b (.variable name) ⟨some name, .undefined name.lexeme⟩
  | operand {op : Operator UnaryOp} {operand : Expression} {v : Value}
    (hv : operand.evaluate b = .ok v) (h : ¬ op.op.Suits v.type) :
    IsAtFault b (.unary op operand) ⟨some op.unaryToken, .operandNotNumber⟩
  | operands {left right : Expression} {op : Operator BinaryOp} {v w : Value}
    (hv : left.evaluate b = .ok v) (hw : right.evaluate b = .ok w)
    (h : ¬ op.op.Suits v.type w.type) :
    IsAtFault b (.binary left op right) ⟨some op.binaryToken, op.op.complaint op.lexeme⟩

/-- The first of the nodes that is at fault, and with which error. All in front of it have
values. -/
def FirstFault (b : Bindings) (nodes : List Expression) (err : RuntimeError) : Prop :=
  ∃ before node after, nodes = before ++ node :: after ∧ IsAtFault b node err ∧
    node.evaluate b = .error (.error err) ∧ ∀ n ∈ before, ∃ v, n.evaluate b = .ok v

namespace FirstFault

variable {xs ys : List Expression} {err : RuntimeError}

theorem append (h : FirstFault b xs err) (ys : List Expression) : FirstFault b (xs ++ ys) err := by
  obtain ⟨before, node, after, rfl, hrest⟩ := h
  exact ⟨before, node, after ++ ys, by simp, hrest⟩

theorem behind (hx : ∀ n ∈ xs, ∃ v, n.evaluate b = .ok v) (h : FirstFault b ys err) :
    FirstFault b (xs ++ ys) err := by
  obtain ⟨before, node, after, rfl, hfault, hvalue, hbefore⟩ := h
  refine ⟨xs ++ before, node, after, by simp, hfault, hvalue, fun n hn => ?_⟩
  exact (List.mem_append.mp hn).elim (hx n) (hbefore n)

end FirstFault

/-- What the nodes of an expression have to do with how its evaluation ends. -/
def Accounts (b : Bindings) (e : Expression) (depth : Nat) : Except Halt Value → Prop
  | .ok _ => e.height ≤ depth ∧ ∀ n ∈ e.nodes, ∃ v, n.evaluate b = .ok v
  | .error (.error err) => FirstFault b e.nodes err
  | .error .tooDeep => depth < e.height

/-- The last step of an evaluation, when all nodes below have values. -/
theorem accounts_of_node {depth : Nat} {below : List Expression} (hn : e.nodes = below ++ [e])
    (hbelow : ∀ n ∈ below, ∃ v, n.evaluate b = .ok v) (hh : e.height ≤ depth)
    (hd : depth ≤ evaluationLimit)
    (h : ∀ halt, e.evaluate b = .error halt → ∃ err, halt = .error err ∧ IsAtFault b e err) :
    Accounts b e depth (e.evaluateWithin b depth) := by
  rw [← evaluate_of_within hh hd]
  cases hvalue : e.evaluate b with
  | ok v =>
    refine ⟨hh, fun n hmem => ?_⟩
    rw [hn] at hmem
    rcases List.mem_append.mp hmem with hmem | hmem
    · exact hbelow n hmem
    · rw [List.mem_singleton.mp hmem]
      exact ⟨v, hvalue⟩
  | error halt =>
    obtain ⟨err, rfl, hfault⟩ := h halt hvalue
    change FirstFault b e.nodes err
    rw [hn]
    exact ⟨below, e, [], rfl, hfault, hvalue, hbelow⟩

/-- What an operand stops with, the node above it stops with. -/
theorem Accounts.above {operand : Expression} {before after : List Expression} {depth : Nat}
    {halt : Halt} (h : Accounts b operand depth (.error halt))
    (hn : e.nodes = before ++ operand.nodes ++ after)
    (hbefore : ∀ n ∈ before, ∃ v, n.evaluate b = .ok v) (hh : operand.height < e.height) :
    Accounts b e (depth + 1) (.error halt) := by
  cases halt with
  | error err =>
    change FirstFault b e.nodes err
    rw [hn]
    exact (FirstFault.behind hbefore h).append after
  | tooDeep => exact Nat.lt_of_le_of_lt h hh

section

variable {depth : Nat} (hd : depth + 1 ≤ evaluationLimit)
include hd

theorem accounts_literal (v : Value) :
    Accounts b (.literal v) (depth + 1) ((literal v).evaluateWithin b (depth + 1)) := by
  have hh : (literal v).height ≤ depth + 1 := Nat.succ_le_succ (Nat.zero_le depth)
  refine accounts_of_node (List.nil_append _).symm (List.forall_mem_nil _) hh hd
    fun halt hhalt => ?_
  cases hhalt

theorem accounts_variable (name : Token) : Accounts b (.variable name) (depth + 1)
    ((Expression.variable name).evaluateWithin b (depth + 1)) := by
  have hh : (Expression.variable name).height ≤ depth + 1 := Nat.succ_le_succ (Nat.zero_le depth)
  refine accounts_of_node (List.nil_append _).symm (List.forall_mem_nil _) hh hd
    fun halt hhalt => ?_
  rw [evaluate_of_within hh hd, evaluateWithin, Bindings.fetch] at hhalt
  cases hname : b.get? name.lexeme with
  | some v =>
    rw [hname] at hhalt
    cases hhalt
  | none =>
    rw [hname] at hhalt
    cases hhalt
    exact ⟨_, rfl, .unbound hname⟩

theorem accounts_group {inner : Expression}
    (hinner : Accounts b inner depth (inner.evaluateWithin b depth)) :
    Accounts b (.group inner) (depth + 1) ((group inner).evaluateWithin b (depth + 1)) := by
  have hwithin : (group inner).evaluateWithin b (depth + 1) = inner.evaluateWithin b depth := rfl
  cases hv : inner.evaluateWithin b depth with
  | error halt =>
    rw [hv] at hinner
    rw [hwithin, hv]
    have hn : (group inner).nodes = [] ++ inner.nodes ++ [group inner] := rfl
    exact hinner.above hn (List.forall_mem_nil _) (Nat.lt_succ_self _)
  | ok v =>
    rw [hv] at hinner
    obtain ⟨hh, hbelow⟩ := hinner
    refine accounts_of_node rfl hbelow (Nat.succ_le_succ hh) hd fun halt hhalt => ?_
    rw [evaluate_of_within (Nat.succ_le_succ hh) hd, hwithin, hv] at hhalt
    cases hhalt

theorem accounts_unary {op : Operator UnaryOp} {operand : Expression}
    (hoperand : Accounts b operand depth (operand.evaluateWithin b depth)) :
    Accounts b (.unary op operand) (depth + 1)
      ((unary op operand).evaluateWithin b (depth + 1)) := by
  cases hv : operand.evaluateWithin b depth with
  | error halt =>
    rw [hv] at hoperand
    rw [evaluateWithin, hv]
    have hn : (unary op operand).nodes = [] ++ operand.nodes ++ [unary op operand] := rfl
    exact hoperand.above hn (List.forall_mem_nil _) (Nat.lt_succ_self _)
  | ok v =>
    rw [hv] at hoperand
    obtain ⟨hh, hbelow⟩ := hoperand
    refine accounts_of_node rfl hbelow (Nat.succ_le_succ hh) hd fun halt hhalt => ?_
    rw [evaluate_of_within (Nat.succ_le_succ hh) hd, evaluateWithin, hv] at hhalt
    obtain ⟨cause, hcause, rfl⟩ := exists_of_located hhalt
    obtain ⟨hsuits, rfl⟩ := UnaryOp.apply_error hcause
    rw [← evaluate_of_within hh ((Nat.le_succ depth).trans hd)] at hv
    exact ⟨_, rfl, .operand hv hsuits⟩

theorem accounts_binary {left right : Expression} {op : Operator BinaryOp}
    (hleft : Accounts b left depth (left.evaluateWithin b depth))
    (hright : Accounts b right depth (right.evaluateWithin b depth)) :
    Accounts b (.binary left op right) (depth + 1)
      ((binary left op right).evaluateWithin b (depth + 1)) := by
  cases hv : left.evaluateWithin b depth with
  | error halt =>
    rw [hv] at hleft
    rw [evaluateWithin, hv]
    have hn : (binary left op right).nodes =
        [] ++ left.nodes ++ (right.nodes ++ [binary left op right]) :=
      List.append_assoc _ _ _
    exact hleft.above hn (List.forall_mem_nil _) (Nat.lt_succ_of_le (Nat.le_max_left _ _))
  | ok v =>
    rw [hv] at hleft
    obtain ⟨hhl, hbelowl⟩ := hleft
    have hwithin : (binary left op right).evaluateWithin b (depth + 1) =
        right.evaluateWithin b depth >>= fun w =>
          located op.binaryToken (op.op.apply op.lexeme v w) := by
      rw [evaluateWithin, hv]
      rfl
    cases hw : right.evaluateWithin b depth with
    | error halt =>
      rw [hw] at hright
      rw [hwithin, hw]
      exact hright.above rfl hbelowl (Nat.lt_succ_of_le (Nat.le_max_right _ _))
    | ok w =>
      rw [hw] at hright
      obtain ⟨hhr, hbelowr⟩ := hright
      have hh : (binary left op right).height ≤ depth + 1 :=
        Nat.succ_le_succ (Nat.max_le.mpr ⟨hhl, hhr⟩)
      have hbelow : ∀ n ∈ left.nodes ++ right.nodes, ∃ v, n.evaluate b = .ok v := fun n hn =>
        (List.mem_append.mp hn).elim (hbelowl n) (hbelowr n)
      refine accounts_of_node rfl hbelow hh hd fun halt hhalt => ?_
      rw [evaluate_of_within hh hd, hwithin, hw] at hhalt
      obtain ⟨cause, hcause, rfl⟩ := exists_of_located hhalt
      obtain ⟨hsuits, rfl⟩ := BinaryOp.apply_error hcause
      have hlow := (Nat.le_succ depth).trans hd
      rw [← evaluate_of_within hhl hlow] at hv
      rw [← evaluate_of_within hhr hlow] at hw
      exact ⟨_, rfl, .operands hv hw hsuits⟩

end

/-- Evaluation ends as the nodes account for. -/
theorem evaluateWithin_accounts (b : Bindings) (e : Expression) {depth : Nat}
    (hd : depth ≤ evaluationLimit) : Accounts b e depth (e.evaluateWithin b depth) := by
  induction depth generalizing e with
  | zero =>
    rw [evaluateWithin]
    change 0 < e.height
    cases e <;> exact Nat.succ_pos _
  | succ depth ih =>
    have hbelow (operand : Expression) := ih operand ((Nat.le_succ depth).trans hd)
    cases e with
    | literal v => exact accounts_literal hd v
    | group inner => exact accounts_group hd (hbelow inner)
    | unary op operand => exact accounts_unary hd (hbelow operand)
    | binary left op right => exact accounts_binary hd (hbelow left) (hbelow right)
    | «variable» name => exact accounts_variable hd name

theorem evaluate_accounts (b : Bindings) (e : Expression) :
    Accounts b e evaluationLimit (e.evaluate b) :=
  evaluateWithin_accounts b e (Nat.le_refl _)

/-- The value of a unary expression from that of its operand. -/
theorem evaluate_unary {operand : Expression} {op : Operator UnaryOp}
    (h : (unary op operand).height ≤ evaluationLimit) (b : Bindings) :
    (unary op operand).evaluate b = operand.evaluate b >>= fun v =>
      located op.unaryToken (op.op.apply v) := by
  have hoperand : operand.height ≤ evaluationLimit := (Nat.le_succ _).trans h
  rw [evaluate_eq h, evaluate_eq hoperand, value, mapError_bind]
  simp only [located_eq]

/-- The value of a binary expression from those of its operands, both of which it always has. -/
theorem evaluate_binary {left right : Expression} {op : Operator BinaryOp}
    (h : (binary left op right).height ≤ evaluationLimit) (b : Bindings) :
    (binary left op right).evaluate b = left.evaluate b >>= fun v => right.evaluate b >>= fun w =>
      located op.binaryToken (op.op.apply op.lexeme v w) := by
  have hboth : max left.height right.height ≤ evaluationLimit := (Nat.le_succ _).trans h
  obtain ⟨hleft, hright⟩ := Nat.max_le.mp hboth
  rw [evaluate_eq h, evaluate_eq hleft, evaluate_eq hright, value, mapError_bind]
  simp only [mapError_bind, located_eq]

/-- A node that is at fault fails with its own error. -/
theorem IsAtFault.evaluate {err : RuntimeError} (hfault : IsAtFault b n err)
    (h : n.height ≤ evaluationLimit) : n.evaluate b = .error (.error err) := by
  cases hfault with
  | unbound hname => rw [evaluate_eq h, value, Bindings.fetch, hname, Except.mapError]
  | operand hv hsuits =>
    rw [evaluate_unary h, hv]
    change located _ _ = _
    rw [UnaryOp.apply_of_not_suits hsuits, located]
  | operands hv hw hsuits =>
    rw [evaluate_binary h, hv, hw]
    change located _ _ = _
    rw [BinaryOp.apply_of_not_suits _ hsuits, located]

/-- Evaluation fails if and only if a node is at fault, and then with the error of the first that
is, in the order in which the nodes are done. All in front of it have values. No operand is left
out: a binary expression fails as its left operand does, and else as its right one does, and only
when both have values these are looked at, whatever the operator is. -/
theorem evaluate_first_fault (h : e.height ≤ evaluationLimit) (b : Bindings) :
    ((∃ why, e.evaluate b = .error why) ↔ ∃ n ∈ e.nodes, ∃ err, IsAtFault b n err) ∧
    (∀ why, e.evaluate b = .error why → ∃ before node after err,
      e.nodes = before ++ node :: after ∧ IsAtFault b node err ∧ why = .error err ∧
        ∀ n ∈ before, (∃ v, n.evaluate b = .ok v) ∧ ∀ other, ¬ IsAtFault b n other) ∧
    ∀ left op right, .binary left op right ∈ e.nodes →
      (∀ why, left.evaluate b = .error why →
        (Expression.binary left op right).evaluate b = .error why) ∧
      (∀ v why, left.evaluate b = .ok v → right.evaluate b = .error why →
        (Expression.binary left op right).evaluate b = .error why) ∧
      ∀ v w, left.evaluate b = .ok v → right.evaluate b = .ok w →
        (Expression.binary left op right).evaluate b =
          located op.binaryToken (op.op.apply op.lexeme v w) := by
  have haccounts := evaluate_accounts b e
  have hfails {n : Expression} (hn : n ∈ e.nodes) {err : RuntimeError}
      (hfault : IsAtFault b n err) :
      n.evaluate b = .error (.error err) :=
    hfault.evaluate ((height_le_of_mem_nodes hn).trans h)
  have hfirst {why : Halt} (hwhy : e.evaluate b = .error why) :
      ∃ err, why = .error err ∧ FirstFault b e.nodes err := by
    rw [hwhy] at haccounts
    cases why with
    | error err => exact ⟨err, rfl, haccounts⟩
    | tooDeep => exact absurd h (Nat.not_le.mpr haccounts)
  refine ⟨⟨?_, ?_⟩, ?_, ?_⟩
  · rintro ⟨why, hwhy⟩
    obtain ⟨err, -, before, node, after, hnodes, hfault, -⟩ := hfirst hwhy
    exact ⟨node, by simp [hnodes], err, hfault⟩
  · rintro ⟨n, hn, err, hfault⟩
    cases hvalue : e.evaluate b with
    | error why => exact ⟨why, rfl⟩
    | ok v =>
      rw [hvalue] at haccounts
      obtain ⟨u, hu⟩ := haccounts.2 n hn
      rw [hfails hn hfault] at hu
      cases hu
  · intro why hwhy
    obtain ⟨err, rfl, before, node, after, hnodes, hfault, -, hbefore⟩ := hfirst hwhy
    refine ⟨before, node, after, err, hnodes, hfault, rfl, fun n hn => ⟨hbefore n hn, ?_⟩⟩
    intro other hother
    obtain ⟨v, hv⟩ := hbefore n hn
    rw [hfails (by simp [hnodes, hn]) hother] at hv
    cases hv
  · intro left op right hmem
    rw [evaluate_binary ((height_le_of_mem_nodes hmem).trans h)]
    refine ⟨fun why hleft => ?_, fun v why hleft hright => ?_, fun v w hleft hright => ?_⟩
    · rw [hleft]
      rfl
    · rw [hleft, hright]
      rfl
    · rw [hleft, hright]
      rfl

/-- The name without a value is reported. The subtraction that would refuse the operand in front of
it is not reached, and the negation behind it, which is at fault as well, comes too late. -/
theorem evaluate_first_fault_unbound :
    let x : Token := ⟨.identifier, "x", .nil, 1⟩
    let minus : Operator BinaryOp := ⟨.subtract, "-", .nil, 1⟩
    let equal : Operator BinaryOp := ⟨.equal, "==", .nil, 1⟩
    let negate : Operator UnaryOp := ⟨.negate, "-", .nil, 1⟩
    let left : Expression := .binary (.literal .nil) minus (.variable x)
    let right : Expression := .unary negate (.literal (.text "a"))
    let e : Expression := .binary left equal right
    let b := Bindings.empty
    e.height ≤ evaluationLimit ∧ IsAtFault b right ⟨some negate.unaryToken, .operandNotNumber⟩ ∧
      (∃ why, e.evaluate b = .error why) ∧
      left.evaluate b = .error (.error ⟨some x, .undefined "x"⟩) ∧
      e.evaluate b = .error (.error ⟨some x, .undefined "x"⟩) := by
  intro x minus equal negate left right e b
  have h : e.height ≤ evaluationLimit := by decide
  have hright : IsAtFault b right ⟨some negate.unaryToken, .operandNotNumber⟩ :=
    .operand rfl (by simp [UnaryOp.Suits, negate, Value.type])
  have hleft : left.evaluate b = .error (.error ⟨some x, .undefined "x"⟩) := by decide +kernel
  obtain ⟨hfails, -, hoperands⟩ := evaluate_first_fault h b
  refine ⟨h, hright, hfails.mpr ⟨right, ?_, _, hright⟩, hleft, ?_⟩
  · simp [e, right, nodes]
  · exact (hoperands left equal right (by simp [e, nodes])).1 _ hleft

end Expression

end ExprScript
