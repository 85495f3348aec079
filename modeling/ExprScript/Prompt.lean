import ExprScript.Diagnostics
import ExprScript.Text.Blank

namespace ExprScript

/-- What an interactive dialogue shows and leaves behind. -/
structure Dialogue where
  output : String
  errors : String
  bindings : Bindings
deriving DecidableEq

namespace Prompt

def sign : String := "> "

/-- An empty line ends the dialogue, and so does the letter c between blanks. A line of blanks alone
does not. -/
def ends (line : String) : Bool :=
  line.isEmpty || Text.trim Text.isBlank line.toList = ['c']

/-- Answers lines one after the other. Bindings stay from line to line, errors do not. -/
def dialogue (b : Bindings) : List String → Dialogue
  | [] => ⟨sign, "", b⟩
  | line :: rest =>
    if ends line then ⟨sign, "", b⟩
    else
      let answer := runSource b line
      let others := dialogue answer.bindings rest
      { others with
        output := sign ++ answer.output ++ others.output
        errors := answer.diagnostics.text ++ others.errors }

end Prompt

end ExprScript
