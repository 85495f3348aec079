import ExprScript.CommandLine.Command

namespace ExprScript

def readFile? (path : Path) : IO (Option ByteArray) := do
  try
    return some (← IO.FS.readBinFile path.display)
  catch _ => return none

/-- Answers the lines that are typed, up to one that ends the dialogue. -/
partial def converse (b : Bindings) : IO Unit := do
  let output ← IO.getStdout
  output.putStr Prompt.sign
  output.flush
  let typed ← (← IO.getStdin).getLine
  if typed.isEmpty then return
  let line := String.ofList (if typed.toList.getLast? = some '\n' then typed.toList.dropLast
    else typed.toList)
  if Prompt.ends line then return
  let answer := runSource b line
  output.putStr answer.output
  output.flush
  (← IO.getStderr).putStr answer.diagnostics.text
  converse answer.bindings

end ExprScript

open ExprScript

def main (arguments : List String) : IO UInt32 := do
  let command := Command.ofArguments arguments
  if command = .prompt then
    converse .empty
    return 0
  let found ← match command.path? with
    | some path => readFile? path
    | none => pure none
  let text ← if command = .runInput then (← IO.getStdin).readToEnd else pure ""
  let outcome := command.execute (fun _ => found) ⟨text, false⟩
  (← IO.getStdout).putStr outcome.output
  (← IO.getStdout).flush
  (← IO.getStderr).putStr outcome.errors
  if let some why := outcome.crash then
    (← IO.getStderr).putStr (why.message ++ "\n")
  return UInt32.ofNat outcome.exit
