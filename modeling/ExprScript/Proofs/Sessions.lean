import ExprScript.Proofs.Runs
import ExprScript.Proofs.Scripts

namespace ExprScript

theorem Run.moved_zero (r : Run) : r.moved (· + 0) = r := by
  obtain ⟨output, b, error⟩ := r
  match error with
  | none | some ⟨none, _⟩ | some ⟨some t, _⟩ => simp [moved, RuntimeError.moved, Token.moved]

theorem Run.moved_add (m n : Int) (r : Run) :
    (r.moved (· + m)).moved (· + n) = r.moved (· + (m + n)) := by
  obtain ⟨output, b, error⟩ := r
  match error with
  | none | some ⟨none, _⟩ | some ⟨some t, _⟩ =>
    simp [moved, RuntimeError.moved, Token.moved, Int.add_assoc]

/-- A session shows and leaves what another one does. The error that ends it is the same one, at a
token some lines further on. -/
structure Session.Later (n : Int) (s t : Session) : Prop where
  output : t.output = s.output
  bindings : t.bindings = s.bindings
  failed : t.diagnostics.hadRuntimeError = s.diagnostics.hadRuntimeError
  report : ∃ why, s.diagnostics = .ofEnd why ∧
    t.diagnostics = .ofEnd (why.map (RuntimeError.moved (· + n)))

namespace Session

@[simp] theorem ofRun_failed (r : Run) :
    (ofRun r).diagnostics.hadRuntimeError = r.error.isSome := by
  obtain ⟨output, b, error⟩ := r
  cases error <;> rfl

theorem Later.ofRun (n : Int) (r : Run) : Later n (ofRun r) (ofRun (r.moved (· + n))) where
  output := rfl
  bindings := rfl
  failed := by simp [Run.moved]
  report := ⟨r.error, rfl, rfl⟩

end Session

/-- Texts run one after another, each on the bindings that the one before leaves, up to the first
one that ends with an error. -/
def runEach (b : Bindings) : List String → Session
  | [] => ⟨"", .empty, b⟩
  | p :: rest =>
    let first := runSource b p
    if first.diagnostics.hadRuntimeError then first
    else
      let others := runEach first.bindings rest
      { others with output := first.output ++ others.output }

/-- Running two texts as one is running the second one on what the first leaves. -/
theorem run_append_line {p q : String} (hp : (Script.read p).isSound = true)
    (hq : (Script.read q).isSound = true) (b : Bindings) :
    run b (Script.read (p ++ "\n" ++ q)).statements =
      (run b (Script.read p).statements).followedBy fun c =>
        (run c (Script.read q).statements).moved (· + (1 + newlines p.toList)) := by
  rw [Script.read_append_line hp hq, run_append]
  simp only [run_moved]

theorem isSound_append_line {p q : String} (hp : (Script.read p).isSound = true)
    (hq : (Script.read q).isSound = true) : (Script.read (p ++ "\n" ++ q)).isSound = true := by
  rw [Script.read_append_line hp hq]
  rfl

/-- Running the texts that a text consists of one by one is running that text. -/
theorem exists_run_each {ps : List String} (h : ∀ p ∈ ps, (Script.read p).isSound = true) :
    (Script.read (String.join (ps.map (· ++ "\n")))).isSound = true ∧
      ∀ b, ∃ (r : Run) (n : Int), runEach b ps = .ofRun r ∧
        run b (Script.read (String.join (ps.map (· ++ "\n")))).statements = r.moved (· + n) := by
  induction ps with
  | nil =>
    have hempty : Script.read (String.join []) = ⟨[], [], []⟩ := by decide +kernel
    rw [List.map_nil, hempty]
    exact ⟨rfl, fun b => ⟨⟨"", b, none⟩, 0, rfl, rfl⟩⟩
  | cons p rest ih =>
    obtain ⟨hp, hrest⟩ := List.forall_mem_cons.mp h
    obtain ⟨hwhole, hruns⟩ := ih hrest
    rw [List.map_cons, String.join_cons]
    refine ⟨isSound_append_line hp hwhole, fun b => ?_⟩
    rw [run_append_line hp hwhole, runEach, runSource_of_sound hp, Session.ofRun_failed]
    cases hend : (run b (Script.read p).statements).error with
    | some why =>
      refine ⟨run b (Script.read p).statements, 0, by simp, ?_⟩
      rw [Run.followedBy, hend, Run.moved_zero]
    | none =>
      -- An error in the rest counts its lines from behind the first text.
      obtain ⟨r, n, heach, hrun⟩ := hruns (run b (Script.read p).statements).bindings
      refine ⟨{ r with output := (run b (Script.read p).statements).output ++ r.output },
        n + (1 + newlines p.toList), ?_, ?_⟩
      · simp [Session.ofRun, heach]
      · rw [Run.followedBy, hend]
        simp only [hrun, Run.moved_add]
        rfl

/-- A text whose two parts, on lines of their own, have nothing wrong in them runs as the parts do
one after the other. What ends the first one ends both, and the line of what ends the second one
counts from the start of the whole. The same holds for any number of parts. -/
theorem runSource_lines :
    (∀ p q : String, (Script.read p).isSound = true → (Script.read q).isSound = true →
      ∀ b : Bindings,
        let first := runSource b p
        let second := runSource first.bindings q
        let both := runSource b (p ++ "\n" ++ q)
        if first.diagnostics.hadRuntimeError then both = first
        else first.diagnostics = .empty ∧
          Session.Later (1 + newlines p.toList)
            { second with output := first.output ++ second.output } both) ∧
    ∀ ps : List String, (∀ p ∈ ps, (Script.read p).isSound = true) → ∀ b : Bindings,
      ∃ n, Session.Later n (runEach b ps) (runSource b (String.join (ps.map (· ++ "\n")))) := by
  refine ⟨fun p q hp hq b => ?_, fun ps h b => ?_⟩
  · intro first second both
    have hfirst : first = .ofRun (run b (Script.read p).statements) := runSource_of_sound hp b
    have hboth : both = .ofRun _ := runSource_of_sound (isSound_append_line hp hq) b
    rw [run_append_line hp hq, Run.followedBy] at hboth
    cases hend : (run b (Script.read p).statements).error with
    | some why =>
      rw [hend] at hboth
      simp [hfirst, hend, hboth]
    | none =>
      have hsecond : second = .ofRun (run first.bindings (Script.read q).statements) :=
        runSource_of_sound hq first.bindings
      rw [hend] at hboth
      rw [if_neg (by simp [hfirst, hend]), hboth, hsecond, hfirst]
      refine ⟨by simp [Session.ofRun, hend, Diagnostics.ofEnd], ?_⟩
      exact Session.Later.ofRun _ ⟨_, _, _⟩
  · obtain ⟨hwhole, hruns⟩ := exists_run_each h
    obtain ⟨r, n, heach, hrun⟩ := hruns b
    refine ⟨n, ?_⟩
    rw [heach, runSource_of_sound hwhole, hrun]
    exact .ofRun n r

/-- The second line finds the name that the first one declares, and fails on the second line of the
whole. -/
theorem runSource_lines_negate_nil :
    let second := runSource (runSource .empty "var a;").bindings "print -a;"
    let both := runSource .empty "var a;\nprint -a;"
    (Script.read "var a;").isSound = true ∧ (Script.read "print -a;").isSound = true ∧
      second.Later 1 both ∧ second.diagnostics.text = "Operand must be a number.\n[line 1]\n" ∧
      both.diagnostics.text = "Operand must be a number.\n[line 2]\n" ∧
      ∃ n, (runEach .empty ["var a;", "print -a;"]).Later n
        (runSource .empty "var a;\nprint -a;\n") := by
  intro second both
  have hp : (Script.read "var a;").isSound = true := by decide +kernel
  have hq : (Script.read "print -a;").isSound = true := by decide +kernel
  have hdone : (runSource .empty "var a;").diagnostics.hadRuntimeError = false := by
    decide +kernel
  have hsilent : (runSource .empty "var a;").output = "" := by decide +kernel
  have hlines := runSource_lines.1 "var a;" "print -a;" hp hq .empty
  simp only [hdone, hsilent, Bool.false_eq_true, if_false, String.empty_append] at hlines
  have htext : String.join (["var a;", "print -a;"].map (· ++ "\n")) = "var a;\nprint -a;\n" := by
    decide
  have heach := runSource_lines.2 ["var a;", "print -a;"] (by simp [hp, hq]) .empty
  rw [htext] at heach
  exact ⟨hp, hq, hlines.2, by decide +kernel, by decide +kernel, heach⟩

end ExprScript
