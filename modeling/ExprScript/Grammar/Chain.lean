import ExprScript.Grammar.Rule

namespace ExprScript

def Token.binaryAt? (level : Level) (t : Token) : Option (Operator BinaryOp) :=
  t.binary?.filter (fun o => o.op.level = level)

namespace Rule

/-- Joins what is read so far with further operands, each after an operator of the level. -/
def chainFrom (level : Level) (operand : Rule Expression) (left : Expression) :
    List Token → Reply Expression
  | [] => ⟨.error .outOfTokens, []⟩
  | t :: ts =>
    match t.binaryAt? level with
    | none => ⟨.ok left, t :: ts⟩
    | some op =>
      match _found : operand.run ts with
      | ⟨.error why, rest⟩ => ⟨.error why, rest⟩
      | ⟨.ok right, rest⟩ => chainFrom level operand (.binary left op right) rest
termination_by ts => ts.length
decreasing_by exact Nat.lt_succ_of_lt (operand.length_lt _found)

theorem chainFrom_rest_suffix (level : Level) (operand : Rule Expression) (left : Expression)
    (ts : List Token) : (chainFrom level operand left ts).rest <:+ ts := by
  fun_induction chainFrom level operand left ts with
  | case1 => exact List.suffix_refl []
  | case2 => exact List.suffix_refl _
  | case3 left t ts op _ why rest found =>
    exact (operand.suffix found).trans (List.suffix_cons t ts)
  | case4 left t ts op _ right rest found ih =>
    exact ih.trans ((operand.suffix found).trans (List.suffix_cons t ts))

def chain (level : Level) (operand : Rule Expression) : Rule Expression where
  run ts :=
    match operand.run ts with
    | ⟨.error why, rest⟩ => ⟨.error why, rest⟩
    | ⟨.ok left, rest⟩ => chainFrom level operand left rest
  rest_suffix ts := by
    split
    · rename_i found
      exact operand.suffix found
    · rename_i left rest found
      exact (chainFrom_rest_suffix level operand left rest).trans (operand.suffix found)
  rest_lt {ts e} done := by
    split at done
    · simp at done
    · rename_i left rest found
      exact Nat.lt_of_le_of_lt (chainFrom_rest_suffix level operand left rest).length_le
        (operand.length_lt found)

/-- Operands joined by operators that bind at least as tightly as a level. The tighter ones are
joined first. -/
def joined (operand : Rule Expression) : Level → Rule Expression
  | .factor => chain .factor operand
  | .term => chain .term (chain .factor operand)
  | .comparison => chain .comparison (chain .term (chain .factor operand))
  | .equality => chain .equality (chain .comparison (chain .term (chain .factor operand)))

end Rule

end ExprScript
