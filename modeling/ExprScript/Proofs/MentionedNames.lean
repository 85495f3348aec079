import ExprScript.Proofs.ValueTypes

namespace ExprScript

/-- The names of the variables in an expression. -/
def Expression.names : Expression → List String
  | .literal _ => []
  | .group inner => inner.names
  | .unary _ operand => operand.names
  | .binary left _ right => left.names ++ right.names
  | .variable name => [name.lexeme]

namespace Statement

/-- The names of the variables in a statement. The name that it declares is none of them by
itself. -/
def names : Statement → List String
  | .expression e | .print e | .declare _ (some e) => e.names
  | .declare _ none => []

/-- The name that a statement declares. -/
def declared : Statement → List String
  | .expression _ | .print _ => []
  | .declare name _ => [name.lexeme]

end Statement

/-- The bindings have the same under each of the names: no value, or the same one. -/
def Bindings.Agree (names : List String) (b c : Bindings) : Prop :=
  ∀ name ∈ names, b.get? name = c.get? name

namespace Bindings.Agree

variable {names others : List String} {b c : Bindings}

theorem mono (h : Agree names b c) (hsub : others ⊆ names) : Agree others b c :=
  fun name hname => h name (hsub hname)

/-- Defining a name on both sides makes them agree on it. -/
theorem define (h : Agree names b c) (name : String) (v : Value) :
    Agree (name :: names) (b.define name v) (c.define name v) := by
  intro other hother
  rw [get?_define, get?_define]
  split
  · rfl
  · rename_i hne
    exact h other ((List.mem_cons.mp hother).resolve_left hne)

end Bindings.Agree

variable {b c : Bindings}

/-- Evaluation looks up no other names than those of the variables. -/
theorem Expression.evaluateWithin_agree {e : Expression} (h : b.Agree e.names c) (depth : Nat) :
    e.evaluateWithin b depth = e.evaluateWithin c depth := by
  induction e generalizing depth with
  | literal v => cases depth <;> rfl
  | group inner ih =>
    cases depth with
    | zero => rfl
    | succ depth => exact ih h depth
  | unary op operand ih =>
    cases depth with
    | zero => rfl
    | succ depth => rw [evaluateWithin, evaluateWithin, ih h depth]
  | binary left op right ihl ihr =>
    cases depth with
    | zero => rfl
    | succ depth =>
      have hleft := ihl (h.mono (List.subset_append_left _ _)) depth
      have hright := ihr (h.mono (List.subset_append_right _ _)) depth
      rw [evaluateWithin, evaluateWithin, hleft, hright]
  | «variable» name =>
    cases depth with
    | zero => rfl
    | succ depth =>
      have hname := h name.lexeme (List.mem_singleton.mpr rfl)
      rw [evaluateWithin, evaluateWithin, Bindings.fetch, Bindings.fetch, hname]

namespace Statement

variable {names : List String} {s : Statement}

theorem valueOf_agree {e : Expression} (h : b.Agree e.names c) (s : Statement) :
    s.valueOf e b = s.valueOf e c := by
  unfold valueOf Expression.evaluate
  rw [Expression.evaluateWithin_agree h]

/-- A statement does the same on bindings that agree on its variables: it fails with the same error,
or it prints the same, and then they agree on the name that it declares as well. -/
theorem execute_agree (h : b.Agree names c) (hs : s.names ⊆ names) :
    (∃ why, s.execute b = .error why ∧ s.execute c = .error why) ∨
      ∃ done other, s.execute b = .ok done ∧ s.execute c = .ok other ∧
        done.output = other.output ∧ done.bindings.Agree (s.declared ++ names) other.bindings := by
  match s with
  | .expression e =>
    have hvalue := valueOf_agree (h.mono hs) (.expression e)
    simp only [execute, hvalue]
    cases valueOf _ e c with
    | error why => exact .inl ⟨why, rfl, rfl⟩
    | ok v => exact .inr ⟨_, _, rfl, rfl, rfl, h⟩
  | .print e =>
    have hvalue := valueOf_agree (h.mono hs) (.print e)
    simp only [execute, hvalue]
    cases valueOf _ e c with
    | error why => exact .inl ⟨why, rfl, rfl⟩
    | ok v => exact .inr ⟨_, _, rfl, rfl, rfl, h⟩
  | .declare name none => exact .inr ⟨_, _, rfl, rfl, rfl, h.define name.lexeme .nil⟩
  | .declare name (some e) =>
    have hvalue := valueOf_agree (h.mono hs) (.declare name (some e))
    simp only [execute, hvalue]
    cases valueOf _ e c with
    | error why => exact .inl ⟨why, rfl, rfl⟩
    | ok v => exact .inr ⟨_, _, rfl, rfl, rfl, h.define name.lexeme v⟩

/-- A statement leaves what is under other names than the one that it declares. -/
theorem execute_frame {done : Effect} (h : s.execute b = .ok done) {name : String}
    (hname : name ∉ s.declared) : done.bindings.get? name = b.get? name := by
  match s with
  | .expression e | .print e =>
    obtain ⟨v, -, hdone⟩ := exists_of_bind_ok h
    cases hdone
    rfl
  | .declare declared none =>
    cases h
    rw [Bindings.get?_define, if_neg (List.ne_of_not_mem_cons hname)]
  | .declare declared (some e) =>
    obtain ⟨v, -, hdone⟩ := exists_of_bind_ok h
    cases hdone
    rw [Bindings.get?_define, if_neg (List.ne_of_not_mem_cons hname)]

end Statement

variable {names : List String} {ss : List Statement}

theorem executed_cons_ok {s : Statement} {done : Effect} (h : s.execute b = .ok done)
    (ss : List Statement) : executed b (s :: ss) = executed done.bindings ss + 1 := by
  simp only [executed, h]

theorem executed_cons_error {s : Statement} {why : RuntimeError} (h : s.execute b = .error why)
    (ss : List Statement) : executed b (s :: ss) = 0 := by
  simp only [executed, h]

/-- The names that the statements which a run executes to their end declare. -/
def declaredBy (b : Bindings) (ss : List Statement) : List String :=
  (ss.take (executed b ss)).flatMap Statement.declared

theorem declaredBy_cons_ok {s : Statement} {done : Effect} (h : s.execute b = .ok done)
    (ss : List Statement) : declaredBy b (s :: ss) = s.declared ++ declaredBy done.bindings ss := by
  rw [declaredBy, executed_cons_ok h, List.take_succ_cons, List.flatMap_cons, declaredBy]

theorem declaredBy_cons_error {s : Statement} {why : RuntimeError} (h : s.execute b = .error why)
    (ss : List Statement) : declaredBy b (s :: ss) = [] := by
  rw [declaredBy, executed_cons_error h, List.take_zero, List.flatMap_nil]

/-- Two runs of the same statements do the same, and leave bindings that agree on the names. -/
structure Coincide (names : List String) (b c : Bindings) (ss : List Statement) : Prop where
  executed : executed b ss = executed c ss
  output : (run b ss).output = (run c ss).output
  error : (run b ss).error = (run c ss).error
  agree : (run b ss).bindings.Agree (declaredBy b ss ++ names) (run c ss).bindings

/-- Runs on bindings that agree on all variables of the statements do the same. The names that are
declared on the way come to those that the bindings agree on. -/
theorem coincide_of_agree (h : b.Agree names c) (hs : ∀ s ∈ ss, s.names ⊆ names) :
    Coincide names b c ss := by
  induction ss generalizing b c names with
  | nil => exact ⟨rfl, rfl, rfl, h⟩
  | cons s ss ih =>
    obtain ⟨hs, hss⟩ := List.forall_mem_cons.mp hs
    rcases Statement.execute_agree h hs with ⟨why, hb, hc⟩ | ⟨done, other, hb, hc, hout, hagree⟩
    · refine ⟨?_, ?_, ?_, ?_⟩
      · rw [executed_cons_error hb, executed_cons_error hc]
      · rw [run_cons_error hb, run_cons_error hc]
      · rw [run_cons_error hb, run_cons_error hc]
      · rw [declaredBy_cons_error hb, run_cons_error hb, run_cons_error hc]
        exact h
    · have hrest := ih hagree fun r hr =>
        List.Subset.trans (hss r hr) (List.subset_append_right _ _)
      refine ⟨?_, ?_, ?_, ?_⟩
      · rw [executed_cons_ok hb, executed_cons_ok hc, hrest.executed]
      · simp only [run_cons_ok hb, run_cons_ok hc, Run.followedBy, hout, hrest.output]
      · simp only [run_cons_ok hb, run_cons_ok hc, Run.followedBy, hrest.error]
      · simp only [run_cons_ok hb, run_cons_ok hc, Run.followedBy, declaredBy_cons_ok hb]
        refine hrest.agree.mono fun name hname => ?_
        simp only [List.mem_append] at hname ⊢
        tauto

/-- A run leaves what is under names that it declares nowhere. -/
theorem run_frame {name : String} (h : name ∉ declaredBy b ss) :
    (run b ss).bindings.get? name = b.get? name := by
  induction ss generalizing b with
  | nil => rfl
  | cons s ss ih =>
    cases hs : s.execute b with
    | error why => rw [run_cons_error hs]
    | ok done =>
      rw [declaredBy_cons_ok hs, List.mem_append, not_or] at h
      rw [run_cons_ok hs, ← s.execute_frame hs h.1, ← ih h.2]
      rfl

/-- How a run goes depends on the variables in its statements alone. On bindings that agree on these
two runs print the same and end with the same error or none, at the same statement. Afterwards the
bindings agree on these variables and on the names that the statements in front declare. Both keep
what they have under each other name. -/
theorem run_depends_on_names
    (h : ∀ name ∈ ss.flatMap Statement.names, b.get? name = c.get? name) :
    (run b ss).output = (run c ss).output ∧ (run b ss).error = (run c ss).error ∧
      ∃ k, StopsAt b ss k ∧ StopsAt c ss k ∧
        (∀ name, name ∈ ss.flatMap Statement.names ∨ name ∈ (ss.take k).flatMap Statement.declared →
          (run b ss).bindings.get? name = (run c ss).bindings.get? name) ∧
        ∀ name, name ∉ (ss.take k).flatMap Statement.declared →
          (run b ss).bindings.get? name = b.get? name ∧
            (run c ss).bindings.get? name = c.get? name := by
  have hboth : Coincide (ss.flatMap Statement.names) b c ss :=
    coincide_of_agree h fun s hs name hname => List.mem_flatMap.mpr ⟨s, hs, hname⟩
  have hother : StopsAt c ss (executed b ss) := by
    rw [hboth.executed]
    exact stopsAt_executed c ss
  refine ⟨hboth.output, hboth.error, executed b ss, stopsAt_executed b ss, hother, ?_, ?_⟩
  · rintro name (hname | hname)
    · exact hboth.agree name (List.mem_append_right _ hname)
    · exact hboth.agree name (List.mem_append_left _ hname)
  · intro name hname
    refine ⟨run_frame hname, run_frame ?_⟩
    rwa [declaredBy, ← hboth.executed]

/-- A name is declared from another one and then refused as an operand. What only one side has bound
does not matter for that. -/
theorem run_depends_on_names_refused :
    let x : Token := ⟨.identifier, "x", .nil, 1⟩
    let y : Token := ⟨.identifier, "y", .nil, 1⟩
    let z : Token := ⟨.identifier, "z", .nil, 3⟩
    let minus : Operator UnaryOp := ⟨.negate, "-", .nil, 2⟩
    let ss : List Statement := [.declare y (some (.variable x)),
      .expression (.unary minus (.variable y)), .declare z none]
    let c := Bindings.empty.define "x" (.text "a")
    let b := c.define "z" (.bool true)
    (∀ name ∈ ss.flatMap Statement.names, b.get? name = c.get? name) ∧
      (run b ss).error = some ⟨some minus.unaryToken, .operandNotNumber⟩ ∧
      (run b ss).error = (run c ss).error ∧
      (run b ss).bindings.get? "y" = (run c ss).bindings.get? "y" ∧
      (run b ss).bindings.get? "z" ≠ (run c ss).bindings.get? "z" := by
  intro x y z minus ss c b
  have h : ∀ name ∈ ss.flatMap Statement.names, b.get? name = c.get? name := by decide +kernel
  obtain ⟨-, herror, k, -, -, hagree, -⟩ := run_depends_on_names h
  exact ⟨h, by decide +kernel, herror, hagree "y" (.inl (by decide)), by decide +kernel⟩

end ExprScript
