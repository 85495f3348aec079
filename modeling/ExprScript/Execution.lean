import ExprScript.Evaluation

namespace ExprScript

structure Effect where
  output : String
  bindings : Bindings
deriving DecidableEq

namespace Statement

/-- The value of an expression in a statement. Too deep a nesting is an error of the statement. -/
def valueOf (s : Statement) (e : Expression) (b : Bindings) : Except RuntimeError Value :=
  match e.evaluate b with
  | .ok v => .ok v
  | .error (.error why) => .error why
  | .error .tooDeep => .error ⟨s.token?, .tooDeep⟩

/-- Executes a statement. When it fails it does nothing else. -/
def execute (s : Statement) (b : Bindings) : Except RuntimeError Effect :=
  match s with
  | .expression e => do
    let _ ← s.valueOf e b
    return ⟨"", b⟩
  | .print e => do
    let v ← s.valueOf e b
    return ⟨v.display ++ "\n", b⟩
  | .declare name none => .ok ⟨"", b.define name.lexeme .nil⟩
  | .declare name (some e) => do
    let v ← s.valueOf e b
    return ⟨"", b.define name.lexeme v⟩

end Statement

/-- What running statements leaves behind: all that was printed, the bindings, and the error that
ended the run early. -/
structure Run where
  output : String
  bindings : Bindings
  error : Option RuntimeError
deriving DecidableEq

/-- Runs statements in order up to the first that fails. -/
def run (b : Bindings) : List Statement → Run
  | [] => ⟨"", b, none⟩
  | s :: rest =>
    match s.execute b with
    | .error why => ⟨"", b, some why⟩
    | .ok done =>
      let others := run done.bindings rest
      { others with output := done.output ++ others.output }

end ExprScript
