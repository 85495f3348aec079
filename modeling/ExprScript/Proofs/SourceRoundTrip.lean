import ExprScript.Proofs.Acceptance
import ExprScript.Proofs.Meaning
import ExprScript.Proofs.SourceText

namespace ExprScript

namespace Expression

theorem strength_sourceTree (e : Expression) : e.sourceTree.strength = 5 := by
  cases e with
  | literal v =>
    cases v with
    | number x =>
      simp only [sourceTree, Number.sourceTree]
      split
      · rfl
      split
      · rfl
      split <;> rfl
    | _ => rfl
  | _ => rfl

theorem respectsPrecedence_number (x : Float) : (Number.sourceTree x).RespectsPrecedence := by
  unfold Number.sourceTree
  have hrank : BinaryOp.divide.level.rank = 3 := rfl
  split
  · simp [RespectsPrecedence, strength, BinaryOp.spelled, hrank]
  split
  · split <;> simp [RespectsPrecedence, strength, BinaryOp.spelled, hrank]
  split <;> simp [RespectsPrecedence, strength]

/-- All operators of a source text stand in parentheses, so they bind as its tree says. -/
theorem respectsPrecedence_sourceTree (e : Expression) : e.sourceTree.RespectsPrecedence := by
  induction e with
  | literal v =>
    cases v with
    | number x => exact respectsPrecedence_number x
    | _ => trivial
  | group inner ih => exact ih
  | unary op operand ih =>
    refine ⟨ih, ?_⟩
    rw [strength_sourceTree]
    decide
  | binary left op right ihl ihr =>
    refine ⟨ihl, ihr, ?_⟩
    rw [strength_sourceTree, strength_sourceTree]
    have hrank : op.op.spelled.op.level.rank < 4 := op.op.spelled.op.level.rank_lt
    omega
  | «variable» name => trivial

end Expression

namespace Statement

/-- The statement keeps to the depths that its source text can be written, read and evaluated
in. -/
def FitsDepths (s : Statement) : Prop :=
  ∀ e ∈ s.expression?, e.height ≤ Expression.sourceLimit ∧
    e.sourceTree.nesting ≤ Grammar.nestingLimit ∧
    e.sourceTree.height ≤ Expression.evaluationLimit

/-- The expression in a statement that was read is that of the source text. -/
theorem exists_of_mem_expression? {s r : Statement} (h : r.unplaced = s.sourceTree)
    {f : Expression} (hf : f ∈ r.expression?) : ∃ e ∈ s.expression?, f.unplaced = e.sourceTree := by
  have hmap (t : Statement) : t.unplaced.expression? = t.expression?.map Expression.unplaced := by
    cases t <;> rfl
  have hmapSource (t : Statement) :
      t.sourceTree.expression? = t.expression?.map Expression.sourceTree := by
    cases t <;> rfl
  have hexpression := congrArg expression? h
  rw [hmap, hmapSource, hf, Option.map_some] at hexpression
  obtain ⟨e, he, hfe⟩ := Option.map_eq_some_iff.mp hexpression.symm
  exact ⟨e, he, hfe.symm⟩

theorem FitsDepths.isWritable {s : Statement} (h : s.FitsDepths) : s.IsWritable :=
  fun e he => (h e he).1

theorem FitsDepths.isEvaluable {s : Statement} (h : s.FitsDepths) : s.IsEvaluable :=
  fun e he => Nat.le_trans (h e he).1 (by decide)

section
variable {s r : Statement} (hd : s.FitsDepths) (h : r.unplaced = s.sourceTree)
include h

theorem respectsPrecedence_of_sourceTree : r.RespectsPrecedence := by
  intro f hf
  obtain ⟨e, -, hfe⟩ := exists_of_mem_expression? h hf
  rw [← f.respectsPrecedence_unplaced, hfe]
  exact e.respectsPrecedence_sourceTree

include hd

theorem isShallow_of_sourceTree : r.IsShallow := by
  intro f hf
  obtain ⟨e, he, hfe⟩ := exists_of_mem_expression? h hf
  rw [← f.nesting_unplaced, hfe]
  exact (hd e he).2.1

theorem isEvaluable_of_sourceTree : r.IsEvaluable := by
  intro f hf
  obtain ⟨e, he, hfe⟩ := exists_of_mem_expression? h hf
  rw [← f.height_unplaced, hfe]
  exact (hd e he).2.2

end

end Statement

/-- Tokens that are those of source texts, up to their lines, spell statements that are the trees
of these texts, up to their lines. -/
theorem exists_spelled {ss : List Statement} (hd : ∀ s ∈ ss, s.FitsDepths) {ts : List Token}
    (h : (ts.map Token.unplaced).map Token.symbol =
      (ss.map Statement.sourceTree).flatMap Statement.yield) :
    ∃ rs, Spelled rs ts ∧ rs.map Statement.unplaced = ss.map Statement.sourceTree ∧
      ∀ r ∈ rs, r.IsEvaluable := by
  have hsymbols : (ts.map Token.symbol).map Symbol.unplaced =
      (ss.map Statement.sourceTree).flatMap Statement.yield := by
    rw [Token.map_symbol_unplaced, h]
  -- Depths and precedence do not look at lines, so the trees that were read keep to them too.
  obtain ⟨rs, hyield, hmap⟩ := exists_placed_statements hsymbols
  have hsource : ∀ r ∈ rs, ∃ s ∈ ss, r.unplaced = s.sourceTree := by
    intro r hr
    have hmem := List.mem_map_of_mem (f := Statement.unplaced) hr
    rw [hmap] at hmem
    obtain ⟨s, hs, heq⟩ := List.mem_map.mp hmem
    exact ⟨s, hs, heq.symm⟩
  refine ⟨rs, spelled_iff.mpr ⟨?_, hyield, ?_⟩, hmap, ?_⟩
  · intro r hr
    obtain ⟨s, -, heq⟩ := hsource r hr
    exact Statement.respectsPrecedence_of_sourceTree heq
  · intro r hr
    obtain ⟨s, hs, heq⟩ := hsource r hr
    exact Statement.isShallow_of_sourceTree (hd s hs) heq
  · intro r hr
    obtain ⟨s, hs, heq⟩ := hsource r hr
    exact Statement.isEvaluable_of_sourceTree (hd s hs) heq

/-- Statements can be written as source text and read back, and what is read runs as they do. -/
theorem source_keeps_meaning {ss : List Statement} (hw : ∀ s ∈ ss, s.WellSpelled)
    (hd : ∀ s ∈ ss, s.FitsDepths) :
    ∃ texts rs last, ss.mapM Statement.source = .ok texts ∧
      (scan ("\n".intercalate texts)).errors = [] ∧
      Grammar.program (scan ("\n".intercalate texts)).tokens = ⟨.ok rs, [], [.ending last]⟩ ∧
      rs.length = ss.length ∧
      ∀ b : Bindings, (run b rs).output = (run b ss).output ∧
        (run b rs).bindings = (run b ss).bindings ∧
        (run b rs).error.map (fun e => (e.message, e.token.map Token.lexeme)) =
          (run b ss).error.map (fun e => (e.message, e.token.map Token.lexeme)) := by
  obtain ⟨texts, htexts, hreads⟩ := reads_statements hw fun s hs => (hd s hs).isWritable
  obtain ⟨hclean, ts, last, htokens, hsymbols⟩ := scan_of_reads hreads
  obtain ⟨rs, hspelled, hmap, hevaluable⟩ := exists_spelled hd hsymbols
  refine ⟨texts, rs, last, htexts, hclean, ?_, ?_, fun b => ?_⟩
  · rw [htokens]
    exact Grammar.program_run hspelled rfl []
  · have hlength := congrArg List.length hmap
    simpa using hlength
  · have halike := run_alike hw (fun s hs => (hd s hs).isEvaluable) hevaluable hmap b
    refine ⟨halike.output, halike.bindings, ?_⟩
    have herror := congrArg (Option.map fun g : Option String × Cause => (g.2.message, g.1))
      halike.error
    rw [Option.map_map, Option.map_map] at herror
    exact herror

theorem source_keeps_meaning_difference :
    let minus : Operator BinaryOp := ⟨.subtract, "-", .nil, 1⟩
    let negate : Operator UnaryOp := ⟨.negate, "-", .nil, 1⟩
    let name : Token := ⟨.identifier, "x", .nil, 1⟩
    let ss : List Statement := [.print (.binary (.literal (.number (-Number.infinity))) minus
      (.unary negate (.variable name)))]
    ∃ texts rs last, ss.mapM Statement.source = .ok texts ∧
      Grammar.program (scan ("\n".intercalate texts)).tokens = ⟨.ok rs, [], [.ending last]⟩ ∧
      ∀ b : Bindings, (run b rs).output = (run b ss).output := by
  intro minus negate name ss
  have hname : IsName "x" := ⟨'x', [], rfl, rfl, by simp, by decide⟩
  have hw : ∀ s ∈ ss, s.WellSpelled := by
    intro s hs
    obtain rfl := List.mem_singleton.mp hs
    exact ⟨trivial, rfl, rfl, hname⟩
  have hd : ∀ s ∈ ss, s.FitsDepths := by
    intro s hs e he
    obtain rfl := List.mem_singleton.mp hs
    obtain rfl := Option.some.inj he
    exact ⟨by decide +kernel, by decide +kernel, by decide +kernel⟩
  obtain ⟨texts, rs, last, htexts, -, hprogram, -, hrun⟩ := source_keeps_meaning hw hd
  exact ⟨texts, rs, last, htexts, hprogram, fun b => (hrun b).1⟩

end ExprScript
