import ExprScript.Proofs.Acceptance
import ExprScript.Proofs.Boundaries

namespace ExprScript

theorem Statement.SpelledBy.of_literal {s : Statement} {v : Value} {ts : List Token}
    (hs : s.expression? = some (.literal v)) (hy : ts.map Token.symbol = s.yield) :
    s.SpelledBy ts := by
  refine ⟨hy, ?_, ?_⟩
  all_goals
    intro e he
    obtain rfl := Option.some.inj (hs.symm.trans he)
    simp [Expression.RespectsPrecedence, Expression.nesting]

/-- The kinds of the tokens that make a boundary between statements, in front of them or behind. -/
def Grammar.separators : List Kind := .semicolon :: .eof :: statementWords

theorem Token.symbol_of_separator {t : Token} (h : t.kind ∈ Grammar.separators) :
    t.symbol = .mark t.kind := by
  unfold symbol
  split <;> rename_i hk <;> first | rfl | exact absurd (hk ▸ h) (by decide)

theorem Statement.SpelledBy.front {s : Statement} {ts : List Token} {stop : Token}
    (h : s.SpelledBy (ts ++ [stop])) : ts.map Token.symbol = s.unended := by
  obtain ⟨us, u, hsplit, hus, -⟩ := h.exists_unended
  obtain ⟨rfl, -⟩ := List.append_inj' hsplit rfl
  exact hus

/-- Between the first token of a statement and the semicolon that ends it there is nothing that
separates statements. -/
theorem Statement.SpelledBy.inside {s : Statement} {w : Token} {ts : List Token}
    (h : s.SpelledBy (w :: ts)) :
    ∃ front u, ts = front ++ [u] ∧ u.kind = .semicolon ∧
      ∀ t ∈ front, t.kind ∉ Grammar.separators := by
  obtain ⟨us, u, hsplit, hus, hu⟩ := h.exists_unended
  obtain ⟨σ, σs, hs, hmarks⟩ := s.exists_unended_cons
  rw [hs] at hus
  obtain ⟨v, front, rfl, -, rfl⟩ := List.map_eq_cons_iff.mp hus
  obtain ⟨rfl, rfl⟩ := List.cons.inj hsplit
  refine ⟨front, u, rfl, hu, fun t ht hk => ?_⟩
  have hapart : ∀ k ∈ Grammar.separators, k ∉ .equal :: expressionMarks := by decide
  have hmem := List.mem_map_of_mem (f := Token.symbol) ht
  rw [Token.symbol_of_separator hk] at hmem
  exact hapart _ hk (hmarks _ hmem)

namespace Grammar
open Rule

section

variable {w u : Token} {front rest : List Token} (hu : u.kind = .semicolon)
  (hfront : ∀ t ∈ front, t.kind ∉ separators) (hrest : ∃ t ∈ rest, t.kind = .eof)
include hu hfront hrest

/-- Recovery in front of a word that starts a statement does not stop there. It drops the word, and
with it everything up to the next semicolon. -/
theorem synchronize_drops_statement (hw : w.kind ∈ statementWords) :
    synchronize (w :: front ++ u :: rest) = ⟨.ok (), rest⟩ := by
  have hword : ∀ k ∈ statementWords, k ≠ .semicolon ∧ k ≠ .eof := by decide
  have hinside (t : Token) (ht : t ∈ front) :
      t.kind ≠ .semicolon ∧ t.kind ≠ .eof ∧ t.kind ∉ statementWords := by
    simpa [separators] using hfront t ht
  have hfirst : FirstBoundary (w :: front ++ u :: rest) (front.length + 2) :=
    firstBoundary_behind hu rest
      (List.forall_mem_cons.mpr ⟨(hword _ hw).1, fun t ht => (hinside t ht).1⟩)
      fun t ht => (hinside t ht).2
  obtain ⟨e, he, hk⟩ := hrest
  have hend : ∃ t ∈ front ++ u :: rest, t.kind = .eof := ⟨e, by simp [he], hk⟩
  obtain ⟨i, hi, -, hrun⟩ := exists_synchronize (hword _ hw).2 hend
  obtain rfl := hi.unique hfirst
  rw [List.cons_append, hrun]
  simp [List.drop_append]

/-- A statement without its semicolon, in front of a word that starts another, is an error at that
word. Recovery goes on from there. -/
theorem declaration_missing_semicolon {s : Statement} {ts : List Token} {stop : Token}
    (hs : s.SpelledBy (ts ++ [stop])) (hw : w.kind ∈ statementWords) :
    declaration (ts ++ (w :: front ++ u :: rest)) = ⟨.ok none, [⟨w, s.unendedProblem⟩], rest⟩ := by
  have hword : ∀ k ∈ statementWords, BinaryOp.ofKind? k = none ∧ k ≠ .equal ∧ k ≠ .semicolon := by
    decide
  obtain ⟨hbinary, hequal, hsemicolon⟩ := hword _ hw
  have hno : w.isA .semicolon = false := isA_eq_false hsemicolon
  have hrun : statement.run (ts ++ w :: (front ++ u :: rest)) =
      ⟨.error (.violation ⟨w, s.unendedProblem⟩), w :: (front ++ u :: rest)⟩ := by
    rw [statement_run_unended hbinary _ hs.front hs.ordered hs.shallow hequal]
    simp [semicolon, expect, onToken, map, hno, Reply.map, Except.map]
  have hskip := synchronize_drops_statement hu hfront hrest hw
  rw [List.cons_append] at hskip ⊢
  rw [declaration, hrun]
  simp [atDepth, recover, hskip, Except.map]

end

section

variable {before after : List Statement} {s : Statement} {xs ts zs : List Token} {stop w e : Token}
  (hbefore : Spelled before xs) (hs : s.SpelledBy (ts ++ [stop])) (hafter : Spelled after zs)
  (he : e.kind = .eof) (more : List Token)
include hbefore hs hafter he

/-- In a program such a statement costs also everything up to the next semicolon, and whatever is
wrong there is not reported. -/
theorem program_missing_semicolon {front : List Token} {u : Token} (hw : w.kind ∈ statementWords)
    (hfront : ∀ t ∈ front, t.kind ∉ separators) (hu : u.kind = .semicolon) :
    program (xs ++ (ts ++ (w :: front ++ u :: (zs ++ e :: more)))) =
      ⟨.ok (before ++ after), [⟨w, s.unendedProblem⟩], e :: more⟩ := by
  have hend : ∃ t ∈ zs ++ e :: more, t.kind = .eof := ⟨e, by simp, he⟩
  have hdeclaration := declaration_missing_semicolon hu hfront hend hs hw
  refine program_of_spelled hbefore ?_
  obtain ⟨σ, σs, hσ, -⟩ := s.exists_unended_cons
  obtain ⟨t, ts, rfl, -, -⟩ := List.map_eq_cons_iff.mp (hs.front.trans hσ)
  rw [List.cons_append] at hdeclaration ⊢
  rw [program_of_declaration (hs.ne_eof t (by simp)) hdeclaration, program_run hafter he more]
  rfl

/-- A declaration that lacks its semicolon takes the next one with it if that starts with a word of
its own: there is one error, at this word, and all declarations but the two are read. -/
theorem missing_semicolon_drops_next {r : Statement} {ys : List Token}
    (hr : r.SpelledBy (w :: ys)) (hw : w.kind = .varWord ∨ w.kind = .printWord) :
    program (xs ++ (ts ++ (w :: ys ++ (zs ++ e :: more)))) =
      ⟨.ok (before ++ after), [⟨w, s.unendedProblem⟩], e :: more⟩ := by
  have hword : w.kind ∈ statementWords := by rcases hw with h | h <;> simp [h, statementWords]
  obtain ⟨front, u, rfl, hu, hfront⟩ := hr.inside
  have h := program_missing_semicolon hbefore hs hafter he more hword hfront hu
  simpa using h

end

/-- Of `nil print nil; print true;` only the last statement is read. -/
theorem missing_semicolon_drops_next_print :
    let nothing : Token := ⟨.nilWord, "nil", .nil, 1⟩
    let word : Token := ⟨.printWord, "print", .nil, 1⟩
    let stop : Token := ⟨.semicolon, ";", .nil, 1⟩
    program [nothing, word, nothing, stop, word, ⟨.trueWord, "true", .nil, 1⟩, stop, .ending 1] =
      ⟨.ok [.print (.literal (.bool true))], [⟨word, .expectSemicolonAfterExpression⟩],
        [.ending 1]⟩ := by
  intro nothing word stop
  have hfirst : (Statement.expression (.literal .nil)).SpelledBy ([nothing] ++ [stop]) :=
    .of_literal rfl rfl
  have hnext : (Statement.print (.literal .nil)).SpelledBy (word :: [nothing, stop]) :=
    .of_literal rfl rfl
  have hlast : Spelled [.print (.literal (.bool true))]
      ([word, ⟨.trueWord, "true", .nil, 1⟩, stop] ++ []) :=
    .cons (.of_literal rfl rfl) .nil
  exact missing_semicolon_drops_next .nil hfirst hlast rfl [] hnext (.inr rfl)

/-- The next declaration is not always among those that are read: of `nil print nil;` nothing is. -/
theorem missing_semicolon_keeps_next_false :
    ¬ ∀ (before after : List Statement) (s r : Statement) (xs ts ys zs : List Token)
      (stop w e : Token), Spelled before xs → s.SpelledBy (ts ++ [stop]) → r.SpelledBy (w :: ys) →
      (w.kind = .varWord ∨ w.kind = .printWord) → Spelled after zs → e.kind = .eof →
      ∃ error, program (xs ++ (ts ++ (w :: ys ++ (zs ++ [e])))) =
        ⟨.ok (before ++ r :: after), [error], [e]⟩ := by
  intro hkept
  let nothing : Token := ⟨.nilWord, "nil", .nil, 1⟩
  let word : Token := ⟨.printWord, "print", .nil, 1⟩
  let stop : Token := ⟨.semicolon, ";", .nil, 1⟩
  have hfirst : (Statement.expression (.literal .nil)).SpelledBy ([nothing] ++ [stop]) :=
    .of_literal rfl rfl
  have hnext : (Statement.print (.literal .nil)).SpelledBy (word :: [nothing, stop]) :=
    .of_literal rfl rfl
  have hend : (Token.ending 1).kind = .eof := rfl
  have hword : word.kind ∈ statementWords := by decide
  have hinside : ∀ t ∈ [nothing], t.kind ∉ separators := by decide
  have hstop : stop.kind = .semicolon := rfl
  obtain ⟨error, hboth⟩ := hkept _ _ _ _ _ _ _ _ _ _ _ .nil hfirst hnext (.inr rfl) .nil hend
  have hdropped := program_missing_semicolon .nil hfirst .nil hend [] hword hinside hstop
  exact absurd (hdropped.symm.trans hboth) (by simp)

end Grammar

end ExprScript
