namespace ExprScript.Text

/-- Writes every end of a line as one newline: a carriage return with a newline behind it, and one
without. -/
def unifyNewlines : List Char → List Char
  | [] => []
  | '\r' :: '\n' :: cs => '\n' :: unifyNewlines cs
  | '\r' :: cs => '\n' :: unifyNewlines cs
  | c :: cs => c :: unifyNewlines cs

/-- The lines of an input. The last one may lack its newline. -/
def lines (input : String) : List String :=
  let pieces := (input.toList.splitOn '\n').map String.ofList
  if pieces.getLast? = some "" then pieces.dropLast else pieces

end ExprScript.Text
