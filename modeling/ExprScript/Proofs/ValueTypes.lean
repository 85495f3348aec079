import ExprScript.Proofs.Runs

namespace ExprScript

/-- The types of values. -/
inductive ValueType where
  | nil | bool | number | text
deriving DecidableEq, Repr

def Value.type : Value → ValueType
  | .nil => .nil
  | .bool _ => .bool
  | .number _ => .number
  | .text _ => .text

/-- The types of the values under names. -/
abbrev Types := String → Option ValueType

def Bindings.types (b : Bindings) : Types := fun name => (b.get? name).map Value.type

theorem Bindings.types_define (b : Bindings) (name : String) (v : Value) :
    (b.define name v).types = Function.update b.types name (some v.type) := by
  funext other
  by_cases h : other = name
  · simp [types, get?_define, h]
  · simp [types, get?_define, h]

namespace UnaryOp

/-- The type of what an operator gives on a value of the type. -/
def onType : UnaryOp → ValueType → Except Cause ValueType
  | not, _ => .ok .bool
  | negate, .number => .ok .number
  | negate, _ => .error .operandNotNumber

theorem apply_type (op : UnaryOp) (v : Value) : (op.apply v).map Value.type = op.onType v.type := by
  cases op with
  | not => rfl
  | negate => cases v <;> rfl

end UnaryOp

namespace BinaryOp

/-- The type of what an operator for numbers only gives. -/
def numericType? : BinaryOp → Option ValueType
  | greater | greaterEqual | less | lessEqual => some .bool
  | subtract | divide | multiply => some .number
  | notEqual | equal | add => none

/-- The type of what an operator gives on values of the types. -/
def onTypes (op : BinaryOp) (lexeme : String) (τ υ : ValueType) : Except Cause ValueType :=
  match op with
  | equal | notEqual => .ok .bool
  | add =>
    match τ, υ with
    | .number, .number => .ok .number
    | .text, .text => .ok .text
    | _, _ => .error .operandsNotAddable
  | op =>
    match op.numericType?, τ, υ with
    | some result, .number, .number => .ok result
    | _, _, _ => .error (.operandsNotNumbers lexeme)

theorem apply_type (op : BinaryOp) (lexeme : String) (v w : Value) :
    (op.apply lexeme v w).map Value.type = op.onTypes lexeme v.type w.type := by
  cases op with
  | equal | notEqual => rfl
  | divide =>
    cases v with
    | number x =>
      cases w with
      | number y =>
        rw [apply_divide]
        rfl
      | _ => rfl
    | _ => rfl
  | _ => cases v <;> cases w <;> rfl

end BinaryOp

theorem exists_ok_map {ε α β : Type} (f : α → β) (r : Except ε α) :
    (∃ a, r = .ok a) ↔ ∃ b, r.map f = .ok b := by
  cases r <;> simp [Except.map]

/-- Whether an operator has a result depends on the type of its operand. -/
theorem UnaryOp.apply_ok_iff (op : UnaryOp) (v : Value) :
    (∃ u, op.apply v = .ok u) ↔ op = .not ∨ v.type = .number := by
  rw [exists_ok_map Value.type, op.apply_type]
  cases op with
  | not => simp [onType]
  | negate => cases v.type <;> simp [onType]

/-- Whether an operator has a result depends on the types of its operands. -/
theorem BinaryOp.apply_ok_iff (op : BinaryOp) (lexeme : String) (v w : Value) :
    (∃ u, op.apply lexeme v w = .ok u) ↔
      op = .equal ∨ op = .notEqual ∨ (v.type = .number ∧ w.type = .number) ∨
        (op = .add ∧ v.type = .text ∧ w.type = .text) := by
  rw [exists_ok_map Value.type, op.apply_type]
  cases op with
  | equal | notEqual => simp [onTypes]
  | _ => cases v.type <;> cases w.type <;> simp [onTypes, numericType?]

theorem Value.same_of_type_ne {v w : Value} (h : v.type ≠ w.type) : v.same w = false := by
  cases v <;> cases w <;> first | rfl | exact absurd rfl h

namespace Expression

/-- The type of an expression's value, going down at most the given number of nodes. It needs no
values, only the types of those under the names. -/
def typeWithin (types : Types) : Nat → Expression → Except Halt ValueType
  | 0, _ => .error .tooDeep
  | _ + 1, .literal v => .ok v.type
  | depth + 1, .group inner => inner.typeWithin types depth
  | depth + 1, .unary op operand => do
    let τ ← operand.typeWithin types depth
    (op.op.onType τ).mapError fun cause => .error ⟨some op.unaryToken, cause⟩
  | depth + 1, .binary left op right => do
    let τ ← left.typeWithin types depth
    let υ ← right.typeWithin types depth
    (op.op.onTypes op.lexeme τ υ).mapError fun cause => .error ⟨some op.binaryToken, cause⟩
  | _ + 1, .variable name =>
    match types name.lexeme with
    | some τ => .ok τ
    | none => .error (.error ⟨some name, .undefined name.lexeme⟩)

theorem map_located (t : Token) (r : Except Cause Value) :
    (located t r).map Value.type =
      (r.map Value.type).mapError fun cause => .error ⟨some t, cause⟩ := by
  cases r <;> rfl

theorem map_bind {ε α β : Type} {x : Except ε Value} {f : Value → Except ε α}
    {g : ValueType → Except ε β} {h : α → β} (hf : ∀ v, (f v).map h = g v.type) :
    (x >>= f).map h = x.map Value.type >>= g := by
  cases x with
  | error why => rfl
  | ok v => exact hf v

/-- Evaluation gives a value of the type that the expression has, or the same error that it has in
place of a type. -/
theorem evaluateWithin_type (b : Bindings) (e : Expression) (depth : Nat) :
    (e.evaluateWithin b depth).map Value.type = e.typeWithin b.types depth := by
  induction e generalizing depth with
  | literal v => cases depth <;> rfl
  | group inner ih =>
    cases depth with
    | zero => rfl
    | succ depth => exact ih depth
  | unary op operand ih =>
    cases depth with
    | zero => rfl
    | succ depth =>
      rw [evaluateWithin, typeWithin, ← ih]
      apply map_bind
      intro v
      rw [map_located, op.op.apply_type]
  | binary left op right ihl ihr =>
    cases depth with
    | zero => rfl
    | succ depth =>
      rw [evaluateWithin, typeWithin, ← ihl, ← ihr]
      apply map_bind
      intro v
      apply map_bind
      intro w
      rw [map_located, op.op.apply_type]
  | «variable» name =>
    cases depth with
    | zero => rfl
    | succ depth =>
      simp only [evaluateWithin, typeWithin, Bindings.fetch, Bindings.types]
      cases b.get? name.lexeme <;> rfl

end Expression

namespace Statement

/-- The type of the value of an expression in a statement. -/
def typeOf (s : Statement) (e : Expression) (types : Types) : Except RuntimeError ValueType :=
  match e.typeWithin types Expression.evaluationLimit with
  | .ok τ => .ok τ
  | .error (.error why) => .error why
  | .error .tooDeep => .error ⟨s.token?, .tooDeep⟩

theorem valueOf_type (s : Statement) (e : Expression) (b : Bindings) :
    (s.valueOf e b).map Value.type = s.typeOf e b.types := by
  have h := Expression.evaluateWithin_type b e Expression.evaluationLimit
  unfold valueOf typeOf Expression.evaluate
  rw [← h]
  cases e.evaluateWithin b Expression.evaluationLimit with
  | ok v => rfl
  | error halt => cases halt <;> rfl

/-- The value that a statement prints when it is executed. -/
def printed (s : Statement) (b : Bindings) : List Value :=
  match s with
  | .print e =>
    match s.valueOf e b with
    | .ok v => [v]
    | .error _ => []
  | _ => []

/-- The types of the printed values, and those under the names afterwards. -/
def typed (s : Statement) (types : Types) : Except RuntimeError (List ValueType × Types) :=
  match s with
  | .expression e => do
    let _ ← s.typeOf e types
    return ([], types)
  | .print e => do
    let τ ← s.typeOf e types
    return ([τ], types)
  | .declare name none => .ok ([], Function.update types name.lexeme (some .nil))
  | .declare name (some e) => do
    let τ ← s.typeOf e types
    return ([], Function.update types name.lexeme (some τ))

/-- A statement has the effect that the types tell, and prints its values, each on a line. -/
theorem execute_typed (s : Statement) (b : Bindings) :
    (s.execute b).map (fun done => ((s.printed b).map Value.type, done.bindings.types)) =
      s.typed b.types := by
  match s with
  | .expression e =>
    rw [execute, typed, ← valueOf_type]
    exact Expression.map_bind fun v => rfl
  | .print e =>
    have hvalue := valueOf_type (.print e) e b
    simp only [execute, typed, printed, ← hvalue]
    cases valueOf _ e b <;> rfl
  | .declare name none =>
    rw [execute, typed, ← show Value.nil.type = .nil from rfl, ← b.types_define]
    rfl
  | .declare name (some e) =>
    rw [execute, typed, ← valueOf_type]
    apply Expression.map_bind
    intro v
    rw [← b.types_define]
    rfl

end Statement

/-- The values that a run prints, in order. -/
def printed (b : Bindings) : List Statement → List Value
  | [] => []
  | s :: rest =>
    match s.execute b with
    | .error _ => []
    | .ok done => s.printed b ++ printed done.bindings rest

/-- How many statements a run executes to their end. -/
def executed (b : Bindings) : List Statement → Nat
  | [] => 0
  | s :: rest =>
    match s.execute b with
    | .error _ => 0
    | .ok done => executed done.bindings rest + 1

/-- What the types tell about a run. -/
structure TypedRun where
  executed : Nat
  printed : List ValueType
  types : Types
  error : Option RuntimeError

/-- Runs statements on types in place of values. -/
def runTyped (types : Types) : List Statement → TypedRun
  | [] => ⟨0, [], types, none⟩
  | s :: rest =>
    match s.typed types with
    | .error why => ⟨0, [], types, some why⟩
    | .ok (shown, after) =>
      let others := runTyped after rest
      { others with executed := others.executed + 1, printed := shown ++ others.printed }

/-- A run goes as the run on the types of its bindings does. -/
theorem runTyped_types (b : Bindings) (ss : List Statement) :
    runTyped b.types ss = ⟨executed b ss, (printed b ss).map Value.type,
      (run b ss).bindings.types, (run b ss).error⟩ := by
  induction ss generalizing b with
  | nil => rfl
  | cons s ss ih =>
    have hs := s.execute_typed b
    cases h : s.execute b with
    | error why =>
      rw [h] at hs
      simp only [runTyped, ← hs, executed, printed, run, h, Except.map, List.map_nil]
    | ok done =>
      rw [h] at hs
      simp only [runTyped, ← hs, executed, printed, run, h, Except.map, ih, List.map_append]

/-- A run executes the first statements to their end, as many as the number says, and nothing else
but the failure of the next one. -/
structure StopsAt (b : Bindings) (ss : List Statement) (k : Nat) : Prop where
  before : run b (ss.take k) = { run b ss with error := none }
  finished : (run b ss).error = none → k = ss.length
  failed : ∀ why, (run b ss).error = some why →
    ∃ s, ss[k]? = some s ∧ s.execute (run b ss).bindings = .error why

theorem stopsAt_executed (b : Bindings) (ss : List Statement) : StopsAt b ss (executed b ss) := by
  induction ss generalizing b with
  | nil => exact ⟨rfl, fun _ => rfl, fun why h => by cases h⟩
  | cons s ss ih =>
    cases h : s.execute b with
    | error why =>
      have hrun := run_cons_error h ss
      have hnone : executed b (s :: ss) = 0 := by simp only [executed, h]
      rw [hnone]
      refine ⟨?_, fun hend => ?_, fun cause hcause => ⟨s, rfl, ?_⟩⟩
      · rw [hrun]
        rfl
      · rw [hrun] at hend
        cases hend
      · rw [hrun] at hcause ⊢
        obtain rfl := Option.some.inj hcause
        exact h
    | ok done =>
      have hsome : executed b (s :: ss) = executed done.bindings ss + 1 := by
        simp only [executed, h]
      have hrest := ih done.bindings
      rw [hsome]
      refine ⟨?_, fun hend => ?_, fun cause hcause => ?_⟩
      · rw [List.take_succ_cons, run_cons_ok h, run_cons_ok h, Run.followedBy, Run.followedBy]
        simp only [hrest.before]
      · rw [run_cons_ok h] at hend
        rw [hrest.finished hend, List.length_cons]
      · rw [run_cons_ok h] at hcause ⊢
        exact hrest.failed cause hcause

/-- The lines that show values. -/
def shown (vs : List Value) : String := String.join (vs.map fun v => v.display ++ "\n")

theorem shown_append (vs ws : List Value) : shown (vs ++ ws) = shown vs ++ shown ws := by
  simp [shown]

theorem exists_of_bind_ok {ε α β : Type} {x : Except ε α} {f : α → Except ε β} {y : β}
    (h : x >>= f = .ok y) : ∃ a, x = .ok a ∧ f a = .ok y := by
  cases x with
  | error why => cases h
  | ok a => exact ⟨a, rfl, h⟩

theorem Statement.execute_output {s : Statement} {b : Bindings} {done : Effect}
    (h : s.execute b = .ok done) : done.output = shown (s.printed b) := by
  match s with
  | .expression e | .declare _ (some e) =>
    obtain ⟨v, -, hdone⟩ := exists_of_bind_ok h
    cases hdone
    rfl
  | .print e =>
    obtain ⟨v, hv, hdone⟩ := exists_of_bind_ok h
    cases hdone
    simp [printed, hv, shown]
  | .declare name none =>
    cases h
    rfl

/-- The output of a run are its printed values, each on a line. -/
theorem run_output (b : Bindings) (ss : List Statement) :
    (run b ss).output = shown (printed b ss) := by
  induction ss generalizing b with
  | nil => rfl
  | cons s ss ih =>
    cases h : s.execute b with
    | error why =>
      simp only [run, printed, h]
      rfl
    | ok done => simp only [run, printed, h, ih, shown_append, s.execute_output h]

/-- How a run goes depends on the types of the values under the names, not on the values. Two runs
on bindings of the same types stop at the same statement with the same error or both get to the end,
print values of the same types, each value on a line, and leave bindings of the same types. An
operator has a result on all values of the types it is for, a number is never equal to a truth
value, and none counts as false. -/
theorem run_types {b c : Bindings} (h : b.types = c.types) (ss : List Statement) :
    ((run b ss).error = (run c ss).error ∧ (∃ k, StopsAt b ss k ∧ StopsAt c ss k) ∧
      (run b ss).output = shown (printed b ss) ∧ (run c ss).output = shown (printed c ss) ∧
      (printed b ss).map Value.type = (printed c ss).map Value.type ∧
      (run b ss).bindings.types = (run c ss).bindings.types) ∧
    (∀ (op : UnaryOp) v, (∃ u, op.apply v = .ok u) ↔ op = .not ∨ v.type = .number) ∧
    (∀ (op : BinaryOp) lexeme v w, (∃ u, op.apply lexeme v w = .ok u) ↔
      op = .equal ∨ op = .notEqual ∨ (v.type = .number ∧ w.type = .number) ∨
        (op = .add ∧ v.type = .text ∧ w.type = .text)) ∧
    (∀ v w : Value, v.type ≠ w.type → v.same w = false) ∧
    ∀ v : Value, v.isTruthy = false → v.type = .nil ∨ v.type = .bool := by
  have hruns : runTyped b.types ss = runTyped c.types ss := congrArg (runTyped · ss) h
  rw [runTyped_types, runTyped_types] at hruns
  obtain ⟨hexecuted, hprinted, htypes, herror⟩ := TypedRun.mk.inj hruns
  refine ⟨⟨herror, ⟨executed b ss, stopsAt_executed b ss, ?_⟩, run_output b ss, run_output c ss,
    hprinted, htypes⟩, UnaryOp.apply_ok_iff, BinaryOp.apply_ok_iff,
    fun v w => Value.same_of_type_ne, fun v hv => ?_⟩
  · rw [hexecuted]
    exact stopsAt_executed c ss
  · cases v with
    | nil => exact .inl rfl
    | bool b => exact .inr rfl
    | number x | text s => cases hv

/-- Dividing by a number goes on as well when it is zero or none. The text behind it is refused. -/
theorem run_types_divide :
    let name : Token := ⟨.identifier, "x", .nil, 1⟩
    let slash : Operator BinaryOp := ⟨.divide, "/", .nil, 1⟩
    let minus : Operator UnaryOp := ⟨.negate, "-", .nil, 2⟩
    let ss : List Statement := [.print (.binary (.variable name) slash (.variable name)),
      .expression (.unary minus (.literal (.text "x")))]
    let b := Bindings.empty.define "x" (.number Number.zero)
    let c := Bindings.empty.define "x" (.number Number.infinity)
    b.types = c.types ∧ (run b ss).error = some ⟨some minus.unaryToken, .operandNotNumber⟩ ∧
      (run c ss).error = (run b ss).error ∧
      (printed b ss).map Value.type = (printed c ss).map Value.type := by
  intro name slash minus ss b c
  have h : b.types = c.types := by
    rw [Bindings.types_define, Bindings.types_define]
    rfl
  obtain ⟨⟨herror, -, -, -, hprinted, -⟩, -⟩ := run_types h ss
  exact ⟨h, by decide +kernel, herror.symm, hprinted⟩

end ExprScript
