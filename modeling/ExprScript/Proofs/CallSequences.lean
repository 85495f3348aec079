import ExprScript.Grammar.Call
import ExprScript.Proofs.EndMarks

namespace ExprScript

namespace Grammar

theorem wholeExpression_rest_lt {ts : List Token} {e : Expression}
    (done : (wholeExpression ts).result = .ok e) :
    (wholeExpression ts).rest.length < ts.length := by
  unfold wholeExpression at done ⊢
  split at done <;> rename_i hfound
  · cases done
  · cases done
  · have hlt := expression.length_lt (eq_of_atDepth_ok hfound)
    split <;> exact hlt

theorem recover_ne_some (e : SyntaxError) (ts : List Token) (s : Statement) :
    (recover e ts).result ≠ .ok (some s) := by
  simp only [recover]
  cases (synchronize ts).result <;> simp [Except.map]

/-- A declaration that yields a statement has taken a token also where it started at an end mark,
for there it yields none. -/
theorem declaration_some_rest_lt {ts : List Token} {s : Statement}
    (done : (declaration ts).result = .ok (some s)) :
    (declaration ts).rest.length < ts.length := by
  unfold declaration at done ⊢
  split at done <;> rename_i hfound
  · exact statement.length_lt (eq_of_atDepth_ok hfound)
  · exact absurd done (recover_ne_some _ _ _)
  · cases done

end Grammar

namespace Cursor
open Grammar

/-- The cursor has been moved forward over tokens that are no end marks, and the errors recorded on
the way stand behind the earlier ones. -/
structure Onward (c d : Cursor) : Prop where
  taken : ∃ ts, c.ahead = ts ++ d.ahead ∧ d.passed = ts.reverse ++ c.passed ∧
    ∀ t ∈ ts, t.kind ≠ .eof
  errors : c.errors <+: d.errors

namespace Onward

variable {c d e : Cursor}

theorem refl (c : Cursor) : Onward c c := ⟨⟨[], rfl, rfl, by simp⟩, List.prefix_refl _⟩

theorem trans (h : Onward c d) (h' : Onward d e) : Onward c e := by
  obtain ⟨xs, hxs, hpassed, hx⟩ := h.taken
  obtain ⟨ys, hys, hpassed', hy⟩ := h'.taken
  refine ⟨⟨xs ++ ys, ?_, ?_, List.forall_mem_append.mpr ⟨hx, hy⟩⟩, h.errors.trans h'.errors⟩
  · rw [hxs, hys, List.append_assoc]
  · rw [hpassed', hpassed, List.reverse_append, List.append_assoc]

theorem tokens_eq (h : Onward c d) : d.tokens = c.tokens := by
  obtain ⟨ts, hahead, hpassed, -⟩ := h.taken
  simp [tokens, hahead, hpassed]

theorem hasEnd (h : Onward c d) (hc : HasEnd c.ahead) : HasEnd d.ahead := by
  obtain ⟨ts, hahead, -, hts⟩ := h.taken
  exact SparesEnd.hasEnd ⟨ts, hahead, hts⟩ hc

/-- What is no longer ahead has been passed. -/
theorem position_add (h : Onward c d) :
    d.position + d.ahead.length = c.position + c.ahead.length := by
  obtain ⟨ts, hahead, hpassed, -⟩ := h.taken
  simp only [position, hahead, hpassed, List.length_append, List.length_reverse]
  omega

theorem position_le (h : Onward c d) : c.position ≤ d.position := by
  obtain ⟨ts, -, hpassed, -⟩ := h.taken
  simp [position, hpassed]

/-- From the start of all tokens the cursor comes no further than in front of the first end mark. -/
theorem position_le_end {ts : List Token} (h : Onward (ofTokens ts) c) :
    c.position ≤ ts.findIdx (·.kind = .eof) := by
  obtain ⟨taken, hahead, hpassed, htaken⟩ := h.taken
  change ts = taken ++ c.ahead at hahead
  have hposition : c.position = taken.length := by simp [position, hpassed, ofTokens]
  have hnone : taken.findIdx (·.kind = .eof) = taken.length :=
    List.findIdx_eq_length_of_false fun t ht => decide_eq_false (htaken t ht)
  rw [hahead, List.findIdx_append, hnone, if_neg (Nat.lt_irrefl _), hposition]
  exact Nat.le_add_left _ _

end Onward

variable {α : Type} {c : Cursor}

theorem onward_moveTo {rest : List Token} (h : SparesEnd c.ahead rest) :
    Onward c (c.moveTo rest) := by
  obtain ⟨taken, hahead, htaken⟩ := h
  refine ⟨⟨taken, hahead, ?_, htaken⟩, List.prefix_refl _⟩
  simp [moveTo, hahead]

/-- The tokens did not run out, and the cursor has been moved forward, whether the outcome is a
failure or not. -/
structure Outcome.Advances (o : Outcome α) (c : Cursor) : Prop where
  onward : Onward c o.2
  found : o.1 ≠ .error .outOfTokens

theorem advances_answer {o : Outcome α} (h : o.Advances c) (wrap : α → Answer) :
    (answer wrap o).Advances c :=
  ⟨h.onward, map_ne_outOfTokens h.found wrap⟩

theorem advances_after {r : Reply α} (h : Stopped c.ahead r.result r.rest) :
    Outcome.Advances (c.after r) c :=
  ⟨onward_moveTo h.spares, h.found⟩

theorem advances_follow {rule : Rule α} (hrule : rule.Stops) (h : HasEnd c.ahead) :
    Outcome.Advances (c.follow rule) c :=
  advances_after (hrule h)

theorem advances_afterRecovery {r : Recovered α} (h : Stopped c.ahead r.result r.rest) :
    Outcome.Advances (c.afterRecovery r) c :=
  ⟨⟨(onward_moveTo h.spares).taken, List.prefix_append _ _⟩, h.found⟩

theorem advances_looked {seen : Except Failure α} (h : seen ≠ .error .outOfTokens) :
    (c.looked seen).Advances c :=
  ⟨.refl c, h⟩

theorem advances_moved {move : Except Failure (α × Cursor)} {a : α} {d : Cursor}
    (h : move = .ok (a, d)) (onward : Onward c d) : (c.moved move).Advances c := by
  subst h
  exact ⟨onward, by simp [moved]⟩

theorem exists_peek (h : HasEnd c.ahead) : ∃ t ts, c.ahead = t :: ts ∧ c.peek = .ok t := by
  obtain ⟨t, ts, hahead⟩ := List.exists_cons_of_ne_nil h.ne_nil
  exact ⟨t, ts, hahead, by rw [peek, hahead]⟩

theorem exists_check (h : HasEnd c.ahead) (k : Kind) :
    ∃ t ts, c.ahead = t :: ts ∧ c.check k = .ok (t.isA k) := by
  obtain ⟨t, ts, hahead, hpeek⟩ := exists_peek h
  exact ⟨t, ts, hahead, by rw [check, hpeek]; rfl⟩

theorem exists_isAtEnd (h : HasEnd c.ahead) :
    ∃ t ts, c.ahead = t :: ts ∧ c.isAtEnd = .ok (t.kind = .eof) := by
  obtain ⟨t, ts, hahead, hpeek⟩ := exists_peek h
  exact ⟨t, ts, hahead, by rw [isAtEnd, hpeek]; rfl⟩

/-- Where nothing has been passed yet, the last of all tokens counts as passed. -/
theorem exists_previous (h : HasEnd c.ahead) : ∃ t, c.previous = .ok t := by
  unfold previous
  cases hlast : c.passed.head?.or c.ahead.getLast? with
  | some t => exact ⟨t, rfl⟩
  | none =>
    obtain ⟨-, hnil⟩ := Option.or_eq_none_iff.mp hlast
    exact absurd (List.getLast?_eq_none_iff.mp hnil) h.ne_nil

theorem exists_advance (h : HasEnd c.ahead) : ∃ t d, c.advance = .ok (t, d) ∧ Onward c d := by
  obtain ⟨t, ts, hahead, hend⟩ := exists_isAtEnd h
  have honward : Onward c (if t.kind = .eof then c else c.moveTo (c.ahead.drop 1)) := by
    split
    · exact .refl c
    · rename_i hk
      apply onward_moveTo
      rw [hahead]
      exact .one hk ts
  obtain ⟨last, hlast⟩ := exists_previous (honward.hasEnd h)
  refine ⟨last, _, ?_, honward⟩
  simp only [advance, hend, bind, Except.bind, decide_eq_true_eq, hlast]
  rfl

theorem exists_accept (h : HasEnd c.ahead) (kinds : List Kind) :
    ∃ b d, c.accept kinds = .ok (b, d) ∧ Onward c d := by
  induction kinds with
  | nil => exact ⟨false, c, rfl, .refl c⟩
  | cons k kinds ih =>
    obtain ⟨t, ts, hahead, hcheck⟩ := exists_check h k
    simp only [accept, hcheck, bind, Except.bind]
    split
    · rename_i hisA
      refine ⟨true, _, rfl, onward_moveTo ?_⟩
      rw [hahead]
      exact .one (Rule.ne_eof_of_isA hisA) ts
    · exact ih

/-- Every call moves forward, stays in front of the first end mark and finds the tokens it looks
at. -/
theorem perform_advances (h : HasEnd c.ahead) (call : Call) : (c.perform call).Advances c := by
  cases call with
  | program => exact advances_answer (advances_afterRecovery (program_stopped h)) _
  | wholeExpression => exact advances_answer (advances_after (wholeExpression_stopped h)) _
  | declaration => exact advances_answer (advances_afterRecovery (declaration_stopped h)) _
  | statement => exact advances_answer (advances_follow plainStatement_stops h) _
  | declarationBody => exact advances_answer (advances_follow declarationBody_stops h) _
  | printBody => exact advances_answer (advances_follow printBody_stops h) _
  | expressionStatement => exact advances_answer (advances_follow expressionStatement_stops h) _
  | expression => exact advances_answer (advances_follow expression_stops h) _
  | binary level => exact advances_answer (advances_follow (binary_stops level) h) _
  | unary => exact advances_answer (advances_follow (unary_stops _) h) _
  | primary => exact advances_answer (advances_follow primary_stops h) _
  | synchronize => exact advances_answer (advances_after (synchronize_stopped h)) _
  | accept kinds =>
    obtain ⟨b, d, haccept, honward⟩ := exists_accept h kinds
    exact advances_answer (advances_moved haccept honward) _
  | check k =>
    obtain ⟨t, ts, -, hcheck⟩ := exists_check h k
    exact advances_answer (advances_looked (by simp [hcheck])) _
  | expect k message => exact advances_answer (advances_follow (Rule.stops_expect k _) h) _
  | advance =>
    obtain ⟨t, d, hadvance, honward⟩ := exists_advance h
    exact advances_answer (advances_moved hadvance honward) _
  | peek =>
    obtain ⟨t, ts, -, hpeek⟩ := exists_peek h
    exact advances_answer (advances_looked (by simp [hpeek])) _
  | previous =>
    obtain ⟨t, hprevious⟩ := exists_previous h
    exact advances_answer (advances_looked (by simp [hprevious])) _
  | isAtEnd =>
    obtain ⟨t, ts, -, hend⟩ := exists_isAtEnd h
    exact advances_answer (advances_looked (by simp [hend])) _

/-- The end mark is ahead behind every call too, so one call after another moves forward. -/
theorem performAll_onward (h : HasEnd c.ahead) (calls : List Call) :
    Onward c (c.performAll calls) := by
  induction calls generalizing c with
  | nil => exact .refl c
  | cons call calls ih =>
    have hcall := (perform_advances h call).onward
    exact hcall.trans (ih (hcall.hasEnd h))

theorem exists_of_answer {o : Outcome α} {wrap : α → Answer} {a : Answer}
    (h : (answer wrap o).1 = .ok a) : ∃ x, o.1 = .ok x ∧ wrap x = a := by
  obtain ⟨result, d⟩ := o
  cases result with
  | error why => cases h
  | ok x => exact ⟨x, rfl, Except.ok.inj h⟩

/-- A rule that gives a node has taken a token. -/
theorem follow_takes {rule : Rule α} {wrap : α → Answer} {a : Answer}
    (h : (answer wrap (c.follow rule)).1 = .ok a) :
    (answer wrap (c.follow rule)).2.ahead.length < c.ahead.length := by
  obtain ⟨x, hx, -⟩ := exists_of_answer h
  exact rule.rest_lt hx

theorem perform_takes {call : Call} {a : Answer} (h : (c.perform call).1 = .ok a)
    (node : a.isNode) : (c.perform call).2.ahead.length < c.ahead.length := by
  cases call with
  | statement | declarationBody | printBody | expressionStatement | expression | binary _ | unary
  | primary | expect _ _ => exact follow_takes h
  | wholeExpression =>
    obtain ⟨e, he, -⟩ := exists_of_answer h
    exact wholeExpression_rest_lt he
  | declaration =>
    obtain ⟨s, hs, rfl⟩ := exists_of_answer h
    cases s with
    | none => cases node
    | some s => exact declaration_some_rest_lt hs
  | program | synchronize | accept _ | check _ | advance | peek | previous | isAtEnd =>
    obtain ⟨x, -, rfl⟩ := exists_of_answer h
    cases node

/-- Whatever calls a caller makes, and whether they fail or not, a cursor on tokens with an end mark
only moves forward and never past the first end mark. No call runs out of tokens, recorded errors
stay, and a call that gives a node has taken a token. -/
theorem calls_move_forward {ts : List Token} (h : HasEnd ts) (earlier later : List Call) :
    let c := (ofTokens ts).performAll earlier
    let d := c.performAll later
    d.tokens = ts ∧ c.position ≤ d.position ∧ d.position ≤ ts.findIdx (·.kind = .eof) ∧
      c.errors <+: d.errors ∧
      ∀ call, (c.perform call).1 ≠ .error .outOfTokens ∧
        ∀ a, (c.perform call).1 = .ok a → a.isNode → c.position < (c.perform call).2.position := by
  intro c d
  have hstart : Onward (ofTokens ts) c := performAll_onward h earlier
  have hend : HasEnd c.ahead := hstart.hasEnd h
  have honward : Onward c d := performAll_onward hend later
  have hall := hstart.trans honward
  refine ⟨hall.tokens_eq, honward.position_le, hall.position_le_end, honward.errors,
    fun call => ?_⟩
  have hcall := perform_advances hend call
  refine ⟨hcall.found, fun a ha node => ?_⟩
  have htakes := perform_takes ha node
  have hsum := hcall.onward.position_add
  omega

/-- Of `print; nil` one declaration fails and leaves the cursor behind the semicolon. There an
expression is read, and then nothing more, whatever is asked: the end mark comes next. -/
theorem calls_move_forward_print_nothing :
    let stop : Token := ⟨.semicolon, ";", .nil, 1⟩
    let nothing : Token := ⟨.nilWord, "nil", .nil, 1⟩
    let ts : List Token :=
      [⟨.printWord, "print", .nil, 1⟩, stop, nothing, .ending 1, nothing, stop]
    let c := (ofTokens ts).performAll [.previous, .declaration]
    let d := c.performAll [.expression, .primary, .synchronize, .advance, .program]
    HasEnd ts ∧ d.tokens = ts ∧ c.position ≤ d.position ∧
      d.position ≤ ts.findIdx (·.kind = .eof) ∧ c.errors <+: d.errors ∧
      c.position = 2 ∧ d.position = 3 ∧ c.errors.length = 1 ∧
      (c.perform .expression).1 = .ok (.expression (.literal .nil)) ∧
      (c.perform .expression).1 ≠ .error .outOfTokens ∧
      c.position < (c.perform .expression).2.position := by
  intro stop nothing ts c d
  have hend : HasEnd ts := ⟨.ending 1, by simp [ts], rfl⟩
  have hexpression : (c.perform .expression).1 = .ok (.expression (.literal .nil)) := by
    have hread : (c.perform .expression).1.toOption = some (.expression (.literal .nil)) := by
      decide +kernel
    cases hresult : (c.perform .expression).1 with
    | error why =>
      rw [hresult] at hread
      cases hread
    | ok a =>
      rw [hresult] at hread
      exact congrArg Except.ok (Option.some.inj hread)
  have hstart : c.position = 2 := by decide +kernel
  have hlast : d.position = 3 := by decide +kernel
  have hrecorded : c.errors.length = 1 := by decide +kernel
  obtain ⟨htokens, hle, hbound, herrors, hcalls⟩ := calls_move_forward hend
    [.previous, .declaration] [.expression, .primary, .synchronize, .advance, .program]
  obtain ⟨hfound, htakes⟩ := hcalls .expression
  exact ⟨hend, htokens, hle, hbound, herrors, hstart, hlast, hrecorded, hexpression, hfound,
    htakes _ hexpression rfl⟩

end Cursor

end ExprScript
