import ExprScript.Proofs.Acceptance
import ExprScript.Proofs.Lookahead

namespace ExprScript

/-- What one declaration makes of the tokens it takes. -/
structure Stretch where
  tokens : List Token
  statement : Option Statement
  errors : List SyntaxError

/-- A stretch is a statement without an error, or one error and no statement. The error is at one
of its tokens, or at the end mark when that comes next. Only the last token may be a semicolon. -/
structure Stretch.Accounted (x : Stretch) (rest : List Token) : Prop where
  nonempty : x.tokens ≠ []
  inside : ∀ t ∈ x.tokens, t.kind ≠ .eof
  semicolon_last : ∀ t ∈ x.tokens.dropLast, t.kind ≠ .semicolon
  outcome :
    (∃ s, x.statement = some s ∧ x.errors = [] ∧ s.SpelledBy x.tokens) ∨
    (∃ e, x.statement = none ∧ x.errors = [e] ∧
      (e.token ∈ x.tokens ∨ e.token.kind = .eof ∧ rest.head? = some e.token))

theorem mem_of_mem_dropLast {front taken left : List Token} {s : Token}
    (h : front ++ [s] = taken ++ left) : ∀ t ∈ taken.dropLast, t ∈ front := by
  intro t ht
  have hprefix : taken <+: front ++ [s] := ⟨left, h.symm⟩
  rcases List.prefix_concat_iff.mp hprefix with rfl | hshort
  · simpa using ht
  · exact hshort.subset (List.dropLast_subset _ ht)

namespace Grammar
open Rule

variable {front : List Token} {s : Token}

/-- Looking for a boundary does not go past the first end, and the tokens behind it do not matter.
Behind a semicolon something has to follow. -/
theorem seekBoundary_settles {previous : Token} (hp : previous.kind ≠ .semicolon)
    (front : List Token) (hf : ∀ t ∈ front, ¬ t.Ends) (hs : s.Ends) :
    ∃ skipped left, front ++ [s] = skipped ++ left ∧ (s.kind = .eof → left ≠ []) ∧
      ∀ more, (s.kind = .semicolon → more ≠ []) →
        seekBoundary previous (front ++ s :: more) = ⟨.ok (), left ++ more⟩ := by
  induction front generalizing previous with
  | nil =>
    rcases hs with hsemi | heof
    · refine ⟨[s], [], rfl, by simp [hsemi], fun more hne => ?_⟩
      obtain ⟨m, ms, rfl⟩ := List.exists_cons_of_ne_nil (hne hsemi)
      simp [seekBoundary, hsemi, hp, startsStatement]
    · refine ⟨[], [s], rfl, by simp, fun more _ => ?_⟩
      simp [seekBoundary, heof]
  | cons t ts ih =>
    have ht := hf t (by simp)
    by_cases hstart : startsStatement t.kind = true
    · refine ⟨[], t :: ts ++ [s], rfl, by simp, fun more _ => ?_⟩
      simp [seekBoundary, hstart]
    · obtain ⟨skipped, left, hsplit, hleft, hseek⟩ := ih
        (fun h => ht (.inl h)) fun u hu => hf u (by simp [hu])
      refine ⟨t :: skipped, left, by simp [hsplit], hleft, fun more hne => ?_⟩
      have hend : ¬ t.kind = .eof := fun h => ht (.inr h)
      rw [List.cons_append, seekBoundary, if_neg (by simp [hend, hp, hstart])]
      exact hseek more hne

/-- Recovery drops the next token, unless it is the end mark, and does not go past the first
end. -/
theorem synchronize_settles (hf : ∀ t ∈ front, ¬ t.Ends) (hs : s.Ends) :
    ∃ skipped left, front ++ [s] = skipped ++ left ∧ (s.kind = .eof → left ≠ []) ∧
      (skipped = [] → front = [] ∧ s.kind = .eof) ∧
      ∀ more, (s.kind = .semicolon → more ≠ []) →
        synchronize (front ++ s :: more) = ⟨.ok (), left ++ more⟩ := by
  cases front with
  | nil =>
    rcases hs with hsemi | heof
    · refine ⟨[s], [], rfl, by simp [hsemi], by simp, fun more hne => ?_⟩
      obtain ⟨m, ms, rfl⟩ := List.exists_cons_of_ne_nil (hne hsemi)
      simp [synchronize, seekBoundary, hsemi]
    · refine ⟨[], [s], rfl, by simp, fun _ => ⟨rfl, heof⟩, fun more _ => ?_⟩
      simp [synchronize, heof]
  | cons t ts =>
    have ht := hf t (by simp)
    obtain ⟨skipped, left, hsplit, hleft, hseek⟩ := seekBoundary_settles
      (fun h => ht (.inl h)) ts (fun u hu => hf u (by simp [hu])) hs
    refine ⟨t :: skipped, left, by simp [hsplit], hleft, by simp, fun more hne => ?_⟩
    rw [List.cons_append, synchronize, if_neg fun h => ht (.inr h)]
    exact hseek more hne

/-- A failure of a declaration is an error at the next token. -/
theorem exists_violation {ts rest : List Token} {why : Failure}
    (h : statement.run ts = ⟨.error why, rest⟩) (hne : rest ≠ []) (hblame : why.BlamesNext rest) :
    ∃ e, rest.head? = some e.token ∧
      ∀ more, atDepth (⟨.error why, rest ++ more⟩ : Reply Statement) =
        ⟨.error (.violation e), rest ++ more⟩ := by
  obtain ⟨t, us, rfl⟩ := List.exists_cons_of_ne_nil hne
  cases why with
  | violation e => exact ⟨e, hblame, fun more => rfl⟩
  | tooDeep => exact ⟨⟨t, .tooDeep⟩, rfl, fun more => rfl⟩
  | outOfTokens => exact hblame.elim
  | badLiteral why => exact hblame.elim

theorem ended_of_front (hs : s.Ends) (hc : ∀ t ∈ front, t.Carries) : Ended (front ++ [s]) := by
  refine ⟨⟨front, s, rfl, hs⟩, fun t ht => ?_⟩
  rcases List.mem_append.mp ht with ht | ht
  · exact hc t ht
  · obtain rfl := List.mem_singleton.mp ht
    rcases hs with hk | hk <;> simp [Token.Carries, hk]

variable (hf : ∀ t ∈ front, ¬ t.Ends) (hs : s.Ends)
include hf hs

omit hs in
/-- Tokens up to the first end, or not even so far, with no end mark among them. -/
theorem inside_of_split {taken left : List Token} (hsplit : front ++ [s] = taken ++ left)
    (hleft : s.kind = .eof → left ≠ []) : ∀ t ∈ taken, t.kind ≠ .eof := by
  intro t ht hk
  have hprefix : taken <+: front ++ [s] := ⟨left, hsplit.symm⟩
  rcases List.prefix_concat_iff.mp hprefix with hall | hshort
  · rcases List.mem_append.mp (hall ▸ ht) with hfront | hlast
    · exact hf t hfront (.inr hk)
    · obtain rfl := List.mem_singleton.mp hlast
      rw [hall] at hsplit
      exact hleft hk (List.append_cancel_left (hsplit.symm.trans (List.append_nil _).symm))
  · exact hf t (hshort.subset ht) (.inr hk)

/-- A statement that is read in front of the first end is read there whatever follows. -/
theorem accounted_of_statement (hc : ∀ t ∈ front, t.Carries) {st : Statement}
    {left : List Token} (h : statement.run (front ++ [s]) = ⟨.ok st, left⟩) :
    ∃ x : Stretch, front ++ [s] = x.tokens ++ left ∧ (s.kind = .eof → left ≠ []) ∧
      ∀ more, x.Accounted (left ++ more) ∧
        declaration (front ++ s :: more) = ⟨.ok x.statement, x.errors, left ++ more⟩ := by
  have hended := ended_of_front hs hc
  obtain ⟨taken, hsplit, htaken⟩ := statement_yields h
  have hspelled := htaken fun t ht => hended.carries t (by simp [hsplit, ht])
  have hne : taken ≠ [] := by
    rintro rfl
    have hlt := statement.length_lt h
    simp [hsplit] at hlt
  have hleft : s.kind = .eof → left ≠ [] := by
    rintro hk rfl
    have hmem : s ∈ taken := by
      rw [List.append_nil] at hsplit
      simp [← hsplit]
    exact hspelled.ne_eof s hmem hk
  refine ⟨⟨taken, some st, []⟩, hsplit, hleft, fun more => ⟨⟨hne, hspelled.ne_eof, ?_, ?_⟩, ?_⟩⟩
  · intro t ht hk
    exact hf t (mem_of_mem_dropLast hsplit t ht) (.inl hk)
  · exact .inl ⟨st, rfl, rfl, hspelled⟩
  · apply declaration_of_statement
    have hmore := statement_settles (front ++ [s]) (by simp [h]) more
    rwa [h, List.append_assoc] at hmore

/-- A failure in front of the first end is recovered from no further than that end. -/
theorem accounted_of_failure (hc : ∀ t ∈ front, t.Carries) {why : Failure} {rest : List Token}
    (h : statement.run (front ++ [s]) = ⟨.error why, rest⟩) (hstart : s.kind = .eof → front ≠ []) :
    ∃ (x : Stretch) (left : List Token), front ++ [s] = x.tokens ++ left ∧
      (s.kind = .eof → left ≠ []) ∧ ∀ more, (s.kind = .semicolon → more ≠ []) →
        x.Accounted (left ++ more) ∧
          declaration (front ++ s :: more) = ⟨.ok x.statement, x.errors, left ++ more⟩ := by
  have hkeeps := statement_keeps (ended_of_front hs hc)
  rw [h] at hkeeps
  obtain ⟨hne, hblame⟩ := hkeeps
  obtain ⟨e, he, hviolation⟩ := exists_violation h hne hblame
  obtain ⟨consumed, hconsumed⟩ := statement.suffix h
  have hrest : rest <:+ front ++ [s] := ⟨consumed, hconsumed⟩
  -- The failure is in front of the end, so what is left to recover from still closes with it.
  obtain ⟨us, rfl, hus⟩ := (List.suffix_concat_iff.mp hrest).resolve_left hne
  obtain ⟨skipped, left, hsplit, hleft, hnone, hsync⟩ :=
    synchronize_settles (fun t ht => hf t (hus.subset ht)) hs
  have hwhole : front ++ [s] = (consumed ++ skipped) ++ left := by
    rw [← hconsumed, hsplit, List.append_assoc]
  refine ⟨⟨consumed ++ skipped, none, [e]⟩, left, hwhole, hleft,
    fun more hmore => ⟨⟨?_, ?_, ?_, ?_⟩, ?_⟩⟩
  · intro hnil
    obtain ⟨rfl, hskipped⟩ := List.append_eq_nil_iff.mp hnil
    obtain ⟨rfl, hk⟩ := hnone hskipped
    exact hstart hk (List.append_cancel_right (hconsumed.symm.trans (List.nil_append _)))
  · exact inside_of_split hf hwhole hleft
  · intro t ht hk
    exact hf t (mem_of_mem_dropLast hwhole t ht) (.inl hk)
  · refine .inr ⟨e, rfl, rfl, ?_⟩
    cases skipped with
    | nil =>
      obtain ⟨rfl, hk⟩ := hnone rfl
      rw [List.nil_append, List.nil_append] at hsplit
      subst hsplit
      obtain rfl := Option.some.inj he
      exact .inr ⟨hk, rfl⟩
    | cons u skipped =>
      rw [hsplit] at he
      obtain rfl := Option.some.inj he
      exact .inl (by simp)
  · have hrun := statement_settles (front ++ [s]) (by
      rw [h]
      rintro ⟨⟩
      exact hblame) more
    rw [h, List.append_assoc] at hrun
    have hat := hviolation more
    rw [← hrun] at hat
    change atDepth (statement.run (front ++ s :: more)) = _ at hat
    have hresumed := hsync more hmore
    simp only [declaration, hat, recover, List.append_assoc, List.singleton_append, hresumed]
    rfl

/-- One declaration is accounted for by tokens up to the first end or less. What comes behind that
end does not matter to it. -/
theorem declaration_accounted (hc : ∀ t ∈ front, t.Carries) (hstart : s.kind = .eof → front ≠ []) :
    ∃ (x : Stretch) (left : List Token), front ++ [s] = x.tokens ++ left ∧
      (s.kind = .eof → left ≠ []) ∧ ∀ more, (s.kind = .semicolon → more ≠ []) →
        x.Accounted (left ++ more) ∧
          declaration (front ++ s :: more) = ⟨.ok x.statement, x.errors, left ++ more⟩ := by
  cases h : statement.run (front ++ [s]) with
  | mk result rest =>
    cases result with
    | error why => exact accounted_of_failure hf hs hc h hstart
    | ok st =>
      obtain ⟨x, hsplit, hleft, hall⟩ := accounted_of_statement hf hs hc h
      exact ⟨x, rest, hsplit, hleft, fun more _ => hall more⟩

end Grammar

end ExprScript
