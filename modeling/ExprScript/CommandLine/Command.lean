import ExprScript.CommandLine.Path
import ExprScript.Expression.Outline
import ExprScript.Prompt
import ExprScript.Text.Lines

namespace ExprScript

/-- What a command line asks for. -/
inductive Command where
  | prompt
  | runText (source : String)
  /-- Run the text of the standard input. -/
  | runInput
  | runFile (path : Path)
  | outlineFile (path : Path)
  | tokensOfFile (path : Path)
  | unrecognized (command : String)
  | usage
deriving DecidableEq

namespace Command

/-- The command that the arguments after the program's name give. A path by itself is a file to
run. -/
def ofArguments : List String → Command
  | [] => .prompt
  | ["run_prompt"] => .prompt
  | [path] => .runFile (.ofString path)
  | ["run", "-"] => .runInput
  | ["run", source] => .runText source
  | ["run_file", path] => .runFile (.ofString path)
  | ["print_ast", path] => .outlineFile (.ofString path)
  | ["tokens", path] => .tokensOfFile (.ofString path)
  | [command, _] => .unrecognized command
  | _ => .usage

def path? : Command → Option Path
  | .runFile path | .outlineFile path | .tokensOfFile path => some path
  | _ => none

end Command

/-- What no command answers for: it ends the program at once. -/
inductive Crash where
  /-- An outline was asked of too high a tree. -/
  | tooDeep
  /-- The bytes of a file are no text. -/
  | notText
deriving DecidableEq, Repr

def Crash.message : Crash → String
  | .tooDeep => "expression too deeply nested"
  | .notText => "file is not UTF-8 text"

structure Outcome where
  exit : Nat
  output : String
  errors : String
  crash : Option Crash
deriving DecidableEq

/-- What stands at the standard input, and whether the user interrupts instead of ending it. -/
structure Input where
  text : String
  interrupted : Bool
deriving DecidableEq

namespace Outcome

def done (output : String) : Outcome := ⟨0, output, "", none⟩

def crashed (output : String) (why : Crash) : Outcome := ⟨1, output, "", some why⟩

/-- The exit code that tells which phase failed. -/
def exitCode (d : Diagnostics) : Nat :=
  if d.hadError then 65 else if d.hadRuntimeError then 70 else 0

def ofSource (source : String) : Outcome :=
  let session := runSource .empty source
  ⟨exitCode session.diagnostics, session.output, session.diagnostics.text, none⟩

/-- Numbered outlines, up to the first statement that is too high. -/
def outlines (n : Nat) : List Statement → String × Option Crash
  | [] => ("", none)
  | s :: rest =>
    match s.outline? with
    | none => ("", some .tooDeep)
    | some text =>
      let (others, crash) := outlines (n + 1) rest
      (s!"{n}: {text}\n" ++ others, crash)

/-- The outlines of a source text's statements, if nothing is wrong with it. -/
def ofOutlines (source : String) : Outcome :=
  let script := Script.read source
  let found := Diagnostics.ofScript script
  if found.hadError then ⟨65, "", found.text, none⟩
  else
    match outlines 1 script.statements with
    | (output, none) => .done output
    | (output, some why) => .crashed output why

def ofTokens (source : String) : Outcome :=
  let scanned := scan source
  let found := Diagnostics.empty.lexical scanned.errors
  let lines := scanned.tokens.map (fun t => s!"{t.line}: {t.describe}\n")
  ⟨exitCode found, String.join lines, found.text, none⟩

def scriptText? (bytes : ByteArray) : Option String :=
  (String.fromUTF8? bytes).map (fun text => String.ofList (Text.unifyNewlines text.toList))

/-- What is done with the text of the file at a path, given the bytes that are found there. -/
def ofFile (path : Path) (found : Option ByteArray) (use : String → Outcome) : Outcome :=
  match found with
  | none => ⟨66, "", s!"File at {path.display} not found\n", none⟩
  | some bytes =>
    match scriptText? bytes with
    | none => .crashed "" .notText
    | some source => use source

end Outcome

namespace Command

/-- Carries out a command, given the bytes that paths lead to. Text from the standard input is asked
for at once, and then an interruption leaves nothing to do, or line by line, and then the
interruption comes behind the last line. -/
def execute (file? : Path → Option ByteArray) (input : Input) : Command → Outcome
  | .prompt =>
    let dialogue := Prompt.dialogue .empty (Text.lines input.text)
    ⟨0, dialogue.output, dialogue.errors, none⟩
  | .runText source => .ofSource source
  | .runInput => if input.interrupted then .done "" else .ofSource input.text
  | .runFile path => .ofFile path (file? path) .ofSource
  | .outlineFile path => .ofFile path (file? path) .ofOutlines
  | .tokensOfFile path => .ofFile path (file? path) .ofTokens
  | .unrecognized command => ⟨66, "", s!"unrecognized command: {command}\n", none⟩
  | .usage => ⟨64, "Usage: rox [command] [script]\n", "", none⟩

end Command

end ExprScript
