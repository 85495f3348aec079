import ExprScript.Diagnostics

namespace ExprScript

/-- The report of an error of the text at a line and a place on it. -/
def reportAt (line : Int) (place message : String) : String :=
  s!"[line {line}] Error{place}: {message}\n"

def LexicalError.report (e : LexicalError) : String := reportAt e.line "" e.problem.message

/-- Where the token of an error stands on its line. -/
def SyntaxError.place (e : SyntaxError) : String :=
  if e.token.kind = .eof then " at end" else s!" at '{e.token.lexeme}'"

def SyntaxError.report (e : SyntaxError) : String :=
  reportAt e.token.line e.place e.problem.message

/-- The report of the error that ended a run: its message, and its line if it has one. -/
def RuntimeError.report (e : RuntimeError) : String :=
  let place := match e.token with
    | some t => s!"[line {t.line}]\n"
    | none => ""
  e.message ++ "\n" ++ place

/-- What is reported of a script that is not run. -/
def Script.reports (s : Script) : List String :=
  s.lexical.map LexicalError.report ++ s.syntactic.map SyntaxError.report

/-- What is reported of how a run ends. -/
def Diagnostics.ofEnd : Option RuntimeError → Diagnostics
  | none => .empty
  | some e => ⟨e.report, false, true⟩

/-- What a run of a script with nothing wrong in it shows and leaves behind. -/
def Session.ofRun (r : Run) : Session := ⟨r.output, .ofEnd r.error, r.bindings⟩

theorem Script.isSound_iff {s : Script} :
    s.isSound = true ↔ s.lexical = [] ∧ s.syntactic = [] := by
  simp [isSound]

namespace Diagnostics

variable {α : Type} {add : Diagnostics → α → Diagnostics} {report : α → String}

/-- Errors that each add a report add their reports in order. -/
theorem foldl_reports (h : ∀ d a, add d a = ⟨d.text ++ report a, true, d.hadRuntimeError⟩)
    (d : Diagnostics) (errors : List α) :
    errors.foldl add d =
      ⟨d.text ++ String.join (errors.map report), d.hadError || !errors.isEmpty,
        d.hadRuntimeError⟩ := by
  induction errors generalizing d with
  | nil => simp
  | cons e errors ih => simp [ih, h, String.append_assoc]

theorem reportLine_eq (d : Diagnostics) (e : LexicalError) :
    d.reportLine e.line e.problem.message = ⟨d.text ++ e.report, true, d.hadRuntimeError⟩ := rfl

theorem reportToken_eq (d : Diagnostics) (e : SyntaxError) :
    d.reportToken e.token e.problem.message =
      ⟨d.text ++ e.report, true, d.hadRuntimeError⟩ := by
  unfold reportToken SyntaxError.report SyntaxError.place
  split <;> rfl

theorem runtime_empty (e : RuntimeError) : empty.runtime e = .ofEnd (some e) := by
  match e with
  | ⟨none, _⟩ | ⟨some _, _⟩ =>
    simp only [runtime, reportRuntime, empty, ofEnd, RuntimeError.report, String.empty_append]

/-- A script is reported on with all its errors, the lexical ones first. -/
theorem ofScript_eq (s : Script) : ofScript s = ⟨String.join s.reports, !s.isSound, false⟩ := by
  unfold ofScript lexical syntactic
  rw [foldl_reports reportLine_eq, foldl_reports reportToken_eq]
  simp [empty, Script.reports, Script.isSound]

end Diagnostics

variable {source : String}

/-- A text with an error is reported on and not run. -/
theorem runSource_of_unsound (h : (Script.read source).isSound = false) (b : Bindings) :
    runSource b source = ⟨"", ⟨String.join (Script.read source).reports, true, false⟩, b⟩ := by
  simp [runSource, Diagnostics.ofScript_eq, h]

/-- A text with nothing wrong in it is run. -/
theorem runSource_of_sound (h : (Script.read source).isSound = true) (b : Bindings) :
    runSource b source = .ofRun (run b (Script.read source).statements) := by
  obtain ⟨hlexical, hsyntactic⟩ := Script.isSound_iff.mp h
  have hfound : Diagnostics.ofScript (Script.read source) = .empty := by
    simp [Diagnostics.ofScript_eq, h, Script.reports, hlexical, hsyntactic, Diagnostics.empty]
  simp only [runSource, hfound, Session.ofRun]
  cases (run b (Script.read source).statements).error with
  | none => rfl
  | some e =>
    rw [← Diagnostics.runtime_empty]
    rfl

end ExprScript
