import ExprScript.Execution
import ExprScript.Script

namespace ExprScript

/-- What was reported to the user, and of which kind. -/
structure Diagnostics where
  text : String
  hadError : Bool
  hadRuntimeError : Bool
deriving DecidableEq

namespace Diagnostics

def empty : Diagnostics := ⟨"", false, false⟩

def report (d : Diagnostics) (line : Int) (place message : String) : Diagnostics :=
  { d with text := d.text ++ s!"[line {line}] Error{place}: {message}\n", hadError := true }

def reportLine (d : Diagnostics) (line : Int) (message : String) : Diagnostics :=
  d.report line "" message

def reportToken (d : Diagnostics) (t : Token) (message : String) : Diagnostics :=
  if t.kind = .eof then d.report t.line " at end" message
  else d.report t.line s!" at '{t.lexeme}'" message

/-- Reports an error of a run, with the line of a token if there is one. -/
def reportRuntime (d : Diagnostics) (t : Option Token) (message : String) : Diagnostics :=
  let place := match t with
    | some t => s!"[line {t.line}]\n"
    | none => ""
  { d with text := d.text ++ message ++ "\n" ++ place, hadRuntimeError := true }

def lexical (d : Diagnostics) (errors : List LexicalError) : Diagnostics :=
  errors.foldl (fun d e => d.reportLine e.line e.problem.message) d

def syntactic (d : Diagnostics) (errors : List SyntaxError) : Diagnostics :=
  errors.foldl (fun d e => d.reportToken e.token e.problem.message) d

def runtime (d : Diagnostics) (e : RuntimeError) : Diagnostics :=
  d.reportRuntime e.token e.message

/-- What is wrong with a text, the lexical errors first. -/
def ofScript (s : Script) : Diagnostics := (empty.lexical s.lexical).syntactic s.syntactic

end Diagnostics

/-- What running a source text shows and leaves behind. -/
structure Session where
  output : String
  diagnostics : Diagnostics
  bindings : Bindings
deriving DecidableEq

/-- Runs a source text. A text with an error is reported and not run. -/
def runSource (b : Bindings) (source : String) : Session :=
  let script := Script.read source
  let found := Diagnostics.ofScript script
  if found.hadError then ⟨"", found, b⟩
  else
    let done := run b script.statements
    let diagnostics := match done.error with
      | some e => found.runtime e
      | none => found
    ⟨done.output, diagnostics, done.bindings⟩

end ExprScript
