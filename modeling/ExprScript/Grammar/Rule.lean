import ExprScript.Grammar.Problem

namespace ExprScript

structure Reply (α : Type) where
  result : Except Failure α
  rest : List Token

namespace Reply

def map {α β : Type} (f : α → β) (r : Reply α) : Reply β := ⟨r.result.map f, r.rest⟩

@[simp] theorem map_rest {α β : Type} (f : α → β) (r : Reply α) : (r.map f).rest = r.rest := rfl

@[simp] theorem map_result {α β : Type} (f : α → β) (r : Reply α) :
    (r.map f).result = r.result.map f := rfl

end Reply

/-- A rule of the grammar, followed on a list of tokens. It leaves an end of the list, and when it
succeeds it has taken at least one token. -/
structure Rule (α : Type) where
  run : List Token → Reply α
  rest_suffix (ts : List Token) : (run ts).rest <:+ ts
  rest_lt {ts : List Token} {a : α} (done : (run ts).result = .ok a) :
    (run ts).rest.length < ts.length

/-- What a rule does about the next token: take it and be done, take it and go on with another rule,
or refuse it. -/
inductive Step (α : Type) where
  | accept (result : Except Failure α)
  | descend (rule : Rule α)
  | refuse (problem : SyntaxProblem)

/-- The token is of the kind. Nothing counts as the end mark. -/
def Token.isA (t : Token) (k : Kind) : Bool := t.kind = k && k ≠ .eof

namespace Rule

variable {α β : Type}

theorem rest_le (r : Rule α) (ts : List Token) : (r.run ts).rest.length ≤ ts.length :=
  (r.rest_suffix ts).length_le

theorem suffix (r : Rule α) {ts rest : List Token} {result : Except Failure α}
    (found : r.run ts = ⟨result, rest⟩) : rest <:+ ts := by
  have h := r.rest_suffix ts
  rwa [found] at h

theorem length_lt (r : Rule α) {ts rest : List Token} {a : α}
    (found : r.run ts = ⟨.ok a, rest⟩) : rest.length < ts.length := by
  have done : (r.run ts).result = .ok a := by rw [found]
  have h := r.rest_lt done
  rwa [found] at h

def onToken (choose : Token → Step α) : Rule α where
  run
    | [] => ⟨.error .outOfTokens, []⟩
    | t :: ts =>
      match choose t with
      | .accept result => ⟨result, ts⟩
      | .descend rule => rule.run ts
      | .refuse problem => ⟨.error (.violation ⟨t, problem⟩), t :: ts⟩
  rest_suffix ts := by
    cases ts with
    | nil => exact List.suffix_refl []
    | cons t ts =>
      cases h : choose t with
      | accept result => simp only [h]; exact List.suffix_cons t ts
      | descend rule => simp only [h]; exact (rule.rest_suffix ts).trans (List.suffix_cons t ts)
      | refuse problem => simp only [h]; exact List.suffix_refl _
  rest_lt {ts a} done := by
    cases ts with
    | nil => simp at done
    | cons t ts =>
      cases h : choose t with
      | accept result => simp [h]
      | descend rule => simp only [h]; exact Nat.lt_succ_of_le (rule.rest_le ts)
      | refuse problem => simp [h] at done

def map (f : α → β) (r : Rule α) : Rule β where
  run ts := (r.run ts).map f
  rest_suffix := r.rest_suffix
  rest_lt {ts b} done := by
    cases h : (r.run ts).result with
    | error why => simp [h, Except.map] at done
    | ok a => exact r.rest_lt h

def andThen (r : Rule α) (next : α → Rule β) : Rule β where
  run ts :=
    match r.run ts with
    | ⟨.error why, rest⟩ => ⟨.error why, rest⟩
    | ⟨.ok a, rest⟩ => (next a).run rest
  rest_suffix ts := by
    split
    · rename_i found
      exact r.suffix found
    · rename_i a rest found
      exact ((next a).rest_suffix rest).trans (r.suffix found)
  rest_lt {ts b} done := by
    split at done
    · simp at done
    · rename_i a rest found
      exact Nat.lt_of_le_of_lt ((next a).rest_le rest) (r.length_lt found)

def expect (k : Kind) (problem : SyntaxProblem) : Rule Token :=
  onToken (fun t => if t.isA k then .accept (.ok t) else .refuse problem)

/-- Takes a token of the given kind and goes on with one rule, or leaves the token to another. -/
def branch (k : Kind) (taken other : Rule α) : Rule α where
  run
    | [] => ⟨.error .outOfTokens, []⟩
    | t :: ts => if t.isA k then taken.run ts else other.run (t :: ts)
  rest_suffix ts := by
    cases ts with
    | nil => exact List.suffix_refl []
    | cons t ts =>
      cases h : t.isA k with
      | true => simp only [h, if_true]; exact (taken.rest_suffix ts).trans (List.suffix_cons t ts)
      | false => simp only [h, Bool.false_eq_true, if_false]; exact other.rest_suffix _
  rest_lt {ts a} done := by
    cases ts with
    | nil => simp at done
    | cons t ts =>
      cases h : t.isA k with
      | true => simp only [h, if_true]; exact Nat.lt_succ_of_le (taken.rest_le ts)
      | false =>
        simp only [h, Bool.false_eq_true, if_false] at done ⊢
        exact other.rest_lt done

end Rule

end ExprScript
