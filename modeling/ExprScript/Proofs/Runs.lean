import ExprScript.Proofs.Meaning

namespace ExprScript

/-- A run and, unless it has failed, another one on the bindings that it leaves. -/
def Run.followedBy (first : Run) (next : Bindings → Run) : Run :=
  match first.error with
  | some _ => first
  | none => { next first.bindings with output := first.output ++ (next first.bindings).output }

theorem run_cons_ok {s : Statement} {b : Bindings} {done : Effect} (h : s.execute b = .ok done)
    (rest : List Statement) :
    run b (s :: rest) = (⟨done.output, done.bindings, none⟩ : Run).followedBy (run · rest) := by
  simp [run, h, Run.followedBy]

theorem run_cons_error {s : Statement} {b : Bindings} {why : RuntimeError}
    (h : s.execute b = .error why) (rest : List Statement) :
    run b (s :: rest) = ⟨"", b, some why⟩ := by
  simp [run, h]

theorem Run.followedBy_assoc (first : Run) (f g : Bindings → Run) :
    (first.followedBy f).followedBy g = first.followedBy fun b => (f b).followedBy g := by
  obtain ⟨output, b, error⟩ := first
  cases error with
  | some why => rfl
  | none =>
    cases h : (f b).error with
    | some why => simp [followedBy, h]
    | none => simp [followedBy, h, String.append_assoc]

/-- Running statements and then others is one run. -/
theorem run_append (b : Bindings) (xs ys : List Statement) :
    run b (xs ++ ys) = (run b xs).followedBy (run · ys) := by
  induction xs generalizing b with
  | nil => simp [run, Run.followedBy]
  | cons s xs ih =>
    rw [List.cons_append]
    cases h : s.execute b with
    | error why => rw [run_cons_error h, run_cons_error h, Run.followedBy]
    | ok done => simp only [run_cons_ok h, Run.followedBy_assoc, ih]

namespace RuntimeError

/-- The error with its token on another line. -/
def moved (f : Int → Int) (e : RuntimeError) : RuntimeError :=
  { e with token := e.token.map (Token.moved f) }

end RuntimeError

/-- What stops an evaluation, with its token on another line. -/
def Halt.moved (f : Int → Int) : Halt → Halt
  | .error e => .error (e.moved f)
  | .tooDeep => .tooDeep

namespace Expression

variable (f : Int → Int)

theorem located_moved (t : Token) (r : Except Cause Value) :
    located (t.moved f) r = (located t r).mapError (Halt.moved f) := by
  cases r <;> rfl

theorem fetch_moved (b : Bindings) (name : Token) :
    (b.fetch (name.moved f)).mapError Halt.error =
      ((b.fetch name).mapError Halt.error).mapError (Halt.moved f) := by
  have hlexeme : (name.moved f).lexeme = name.lexeme := rfl
  unfold Bindings.fetch
  rw [hlexeme]
  cases b.get? name.lexeme <;> rfl

/-- Evaluation does not look at lines. An error has the line of its token. -/
theorem evaluateWithin_moved (b : Bindings) (e : Expression) (depth : Nat) :
    (e.moved f).evaluateWithin b depth =
      (e.evaluateWithin b depth).mapError (Halt.moved f) := by
  induction e generalizing depth with
  | literal v => cases depth <;> rfl
  | group inner ih =>
    cases depth with
    | zero => rfl
    | succ depth => exact ih depth
  | unary op operand ih =>
    cases depth with
    | zero => rfl
    | succ depth =>
      rw [moved, evaluateWithin, ih, evaluateWithin, mapError_bind]
      simp only [← located_moved]
      rfl
  | binary left op right ihl ihr =>
    cases depth with
    | zero => rfl
    | succ depth =>
      rw [moved, evaluateWithin, ihl, ihr, evaluateWithin, mapError_bind]
      simp only [mapError_bind, ← located_moved]
      rfl
  | «variable» name =>
    cases depth with
    | zero => rfl
    | succ depth => exact fetch_moved f b name

theorem token?_moved (e : Expression) : (e.moved f).token? = e.token?.map (Token.moved f) := by
  induction e with
  | group inner ih => exact ih
  | _ => rfl

end Expression

namespace Statement

variable (f : Int → Int) (s : Statement) (b : Bindings)

theorem token?_moved : (s.moved f).token? = s.token?.map (Token.moved f) := by
  cases s with
  | expression e | print e => exact e.token?_moved f
  | declare name initial => rfl

theorem valueOf_moved (e : Expression) :
    (s.moved f).valueOf (e.moved f) b = (s.valueOf e b).mapError (RuntimeError.moved f) := by
  unfold valueOf Expression.evaluate
  rw [Expression.evaluateWithin_moved]
  cases e.evaluateWithin b Expression.evaluationLimit with
  | ok v => rfl
  | error halt =>
    cases halt with
    | error why => rfl
    | tooDeep =>
      rw [s.token?_moved]
      rfl

theorem execute_moved :
    (s.moved f).execute b = (s.execute b).mapError (RuntimeError.moved f) := by
  have hvalue := s.valueOf_moved f b
  match s with
  | .expression e =>
    rw [execute, Expression.mapError_bind, ← hvalue e]
    rfl
  | .print e =>
    rw [execute, Expression.mapError_bind, ← hvalue e]
    rfl
  | .declare name none => rfl
  | .declare name (some e) =>
    rw [execute, Expression.mapError_bind, ← hvalue e]
    rfl

end Statement

/-- The run with its error at another line. -/
def Run.moved (f : Int → Int) (r : Run) : Run :=
  { r with error := r.error.map (RuntimeError.moved f) }

/-- Statements on other lines run as before, and an error has the line of its token. -/
theorem run_moved (f : Int → Int) (b : Bindings) (ss : List Statement) :
    run b (ss.map (Statement.moved f)) = (run b ss).moved f := by
  induction ss generalizing b with
  | nil => rfl
  | cons s ss ih =>
    have hs := s.execute_moved f b
    rw [List.map_cons]
    cases h : s.execute b with
    | error why =>
      rw [h] at hs
      rw [run_cons_error hs, run_cons_error h]
      rfl
    | ok done =>
      rw [h] at hs
      simp only [run_cons_ok hs, run_cons_ok h, Run.followedBy, ih]
      rfl

end ExprScript
