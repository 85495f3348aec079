import ExprScript.Proofs.Runs

namespace ExprScript

/-- What running changes: all that was printed so far and the bindings. -/
structure World where
  output : String
  bindings : Bindings
deriving DecidableEq

namespace World

/-- Work that goes on in a world and may break off. What it did to the world until then stays. -/
abbrev Work (ε α : Type) := EStateM ε World α

variable {ε α β : Type}

/-- Work that does nothing to the world and breaks off where the result is an error. -/
def Work.ofExcept (r : Except ε α) : Work ε α := fun w =>
  match r with
  | .ok a => .ok a w
  | .error why => .error why w

/-- Pieces of work that leave the world alone do so one after another. -/
theorem Work.bind_eq {x : Work ε α} {f : α → Work ε β} {w : World} {r : Except ε α}
    {g : α → Except ε β} (hx : x w = ofExcept r w) (hf : ∀ a, f a w = ofExcept (g a) w) :
    (x >>= f) w = ofExcept (r >>= g) w := by
  change EStateM.bind x f w = _
  rw [EStateM.bind, hx]
  cases r with
  | error why => rfl
  | ok a => exact hf a

end World

open World (Work)

namespace Expression

/-- Evaluates an expression in a world, node by node. -/
def work : Nat → Expression → Work Halt Value
  | 0, _ => throw .tooDeep
  | _ + 1, .literal v => pure v
  | depth + 1, .group inner => inner.work depth
  | depth + 1, .unary op operand => do
    let v ← operand.work depth
    .ofExcept (located op.unaryToken (op.op.apply v))
  | depth + 1, .binary left op right => do
    let v ← left.work depth
    let w ← right.work depth
    .ofExcept (located op.binaryToken (op.op.apply op.lexeme v w))
  | _ + 1, .variable name => do
    let world ← get
    .ofExcept ((world.bindings.fetch name).mapError .error)

/-- Evaluation leaves the world alone, also where it breaks off on the way. -/
theorem work_eq (e : Expression) (depth : Nat) (w : World) :
    e.work depth w = Work.ofExcept (e.evaluateWithin w.bindings depth) w := by
  induction e generalizing depth with
  | literal v => cases depth <;> rfl
  | group inner ih =>
    cases depth with
    | zero => rfl
    | succ depth => exact ih depth
  | unary op operand ih =>
    cases depth with
    | zero => rfl
    | succ depth => exact Work.bind_eq (ih depth) fun v => rfl
  | binary left op right ihl ihr =>
    cases depth with
    | zero => rfl
    | succ depth => exact Work.bind_eq (ihl depth) fun v => Work.bind_eq (ihr depth) fun u => rfl
  | «variable» name =>
    cases depth <;> rfl

end Expression

namespace Statement

/-- Evaluates the expression in a statement. Too deep a nesting is an error of the statement. -/
def workOn (s : Statement) (e : Expression) : Work RuntimeError Value :=
  (e.work Expression.evaluationLimit).adaptExcept fun
    | .error why => why
    | .tooDeep => ⟨s.token?, .tooDeep⟩

/-- Executes a statement in a world: first its expression, then what it does to the world. -/
def work (s : Statement) : Work RuntimeError Unit :=
  match s with
  | .expression e => do
    let _ ← s.workOn e
  | .print e => do
    let v ← s.workOn e
    modify fun w => { w with output := w.output ++ (v.display ++ "\n") }
  | .declare name none => modify fun w => { w with bindings := w.bindings.define name.lexeme .nil }
  | .declare name (some e) => do
    let v ← s.workOn e
    modify fun w => { w with bindings := w.bindings.define name.lexeme v }

theorem workOn_eq (s : Statement) (e : Expression) (w : World) :
    s.workOn e w = Work.ofExcept (s.valueOf e w.bindings) w := by
  have h := e.work_eq Expression.evaluationLimit w
  unfold workOn valueOf Expression.evaluate
  rw [EStateM.adaptExcept, h]
  cases e.evaluateWithin w.bindings Expression.evaluationLimit with
  | ok v => rfl
  | error halt => cases halt <;> rfl

/-- A statement that cannot evaluate its expression does nothing else. -/
theorem workOn_bind (s : Statement) (e : Expression) (next : Value → Work RuntimeError Unit)
    (w : World) :
    (s.workOn e >>= next) w = match s.valueOf e w.bindings with
      | .ok v => next v w
      | .error why => .error why w := by
  change EStateM.bind (s.workOn e) next w = _
  rw [EStateM.bind, workOn_eq]
  cases s.valueOf e w.bindings <;> rfl

/-- The world after a statement that is executed in it. -/
theorem work_eq (s : Statement) (w : World) :
    s.work w = match s.execute w.bindings with
      | .ok done => .ok () ⟨w.output ++ done.output, done.bindings⟩
      | .error why => .error why w := by
  match s with
  | .expression e =>
    rw [work, workOn_bind, execute]
    cases valueOf _ e w.bindings with
    | error why => rfl
    | ok v =>
      change EStateM.Result.ok () w = .ok () ⟨w.output ++ "", w.bindings⟩
      rw [String.append_empty]
  | .print e =>
    rw [work, workOn_bind, execute]
    cases valueOf _ e w.bindings <;> rfl
  | .declare name none =>
    simp only [execute, String.append_empty]
    rfl
  | .declare name (some e) =>
    rw [work, workOn_bind, execute]
    cases valueOf _ e w.bindings with
    | error why => rfl
    | ok v =>
      change EStateM.Result.ok () { w with bindings := w.bindings.define name.lexeme v } =
        .ok () ⟨w.output ++ "", w.bindings.define name.lexeme v⟩
      rw [String.append_empty]

end Statement

namespace World

/-- The end of a run that started in the world. -/
def after (w : World) (r : Run) : EStateM.Result RuntimeError World Unit :=
  match r.error with
  | none => .ok () ⟨w.output ++ r.output, r.bindings⟩
  | some why => .error why ⟨w.output ++ r.output, r.bindings⟩

end World

end ExprScript
