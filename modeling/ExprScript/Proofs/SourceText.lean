import ExprScript.Proofs.LongestLexemes
import ExprScript.Proofs.SourceTree

namespace ExprScript

/-- The statement's expression is low enough to be written as source text. -/
def Statement.IsWritable (s : Statement) : Prop :=
  ∀ e ∈ s.expression?, e.height ≤ Expression.sourceLimit

theorem reads_print :
    Reads ['p', 'r', 'i', 'n', 't', ' '] [.mark .printWord] Anywhere := by
  have hword := @reads_word 'p' ['r', 'i', 'n', 't'] rfl (List.all_eq_true.mp rfl)
  exact hword.append reads_space fun rest _ => apart_cons (by simp) _

theorem reads_var : Reads ['v', 'a', 'r', ' '] [.mark .varWord] Anywhere := by
  have hword := @reads_word 'v' ['a', 'r'] rfl (List.all_eq_true.mp rfl)
  exact hword.append reads_space fun rest _ => apart_cons (by simp) _

theorem reads_equal : Reads [' ', '=', ' '] [.mark .equal] Anywhere := by
  have hequal := @reads_alone '=' .equal .equalEqual rfl rfl
  have hright := hequal.append reads_space fun rest _ => notEquals_cons (by decide) _
  exact reads_space.append hright fun _ _ => trivial

theorem reads_semicolon : Reads [';'] [.mark .semicolon] Anywhere :=
  @reads_single ';' .semicolon rfl

/-- What spells an expression in front of a semicolon. -/
theorem Spells.ended {cs : List Char} {e : Expression} (h : Spells cs e) :
    Reads (cs ++ [';']) (e.yield ++ [.mark .semicolon]) Anywhere :=
  h.reads.append reads_semicolon fun rest _ => apart_cons (by simp) rest

/-- A statement that is not too high has a source text, which reads as the tokens of its tree. -/
theorem reads_statement {s : Statement} (hw : s.WellSpelled) (hh : s.IsWritable) :
    ∃ text, s.source = .ok text ∧ Reads text.toList s.sourceTree.yield Anywhere := by
  cases s with
  | expression e =>
    obtain ⟨text, htext, hspells⟩ := spells_expression hw (hh e rfl)
    refine ⟨text ++ ";", ?_, ?_⟩
    · simp only [Statement.source, Expression.source, htext]
      rfl
    · rw [String.toList_append]
      exact hspells.ended
  | print e =>
    obtain ⟨text, htext, hspells⟩ := spells_expression hw (hh e rfl)
    refine ⟨"print " ++ text ++ ";", ?_, ?_⟩
    · simp only [Statement.source, Expression.source, htext]
      rfl
    · rw [String.append_assoc, String.toList_append, String.toList_append]
      exact reads_print.append hspells.ended fun _ _ => trivial
  | declare name initial =>
    obtain ⟨hname, hinitial⟩ := hw
    have hspelled := (Spells.ofName hname).reads
    cases initial with
    | none =>
      refine ⟨"var " ++ name.lexeme ++ ";", rfl, ?_⟩
      have hend := hspelled.append reads_semicolon fun rest _ => apart_cons (by simp) rest
      rw [String.append_assoc, String.toList_append, String.toList_append]
      exact reads_var.append hend fun _ _ => trivial
    | some e =>
      obtain ⟨text, htext, hspells⟩ := spells_expression (hinitial e rfl) (hh e rfl)
      refine ⟨"var " ++ name.lexeme ++ " = " ++ text ++ ";", ?_, ?_⟩
      · simp only [Statement.source, Expression.source, htext]
        rfl
      · have hvalue := reads_equal.append hspells.ended fun _ _ => trivial
        have hbody := hspelled.append hvalue fun rest _ => apart_cons (by simp) _
        have hall := reads_var.append hbody fun _ _ => trivial
        simpa [String.toList_append, Statement.sourceTree, Statement.yield, Expression.yield] using
          hall

/-- Texts of statements with newlines between them read as the tokens of all the trees. -/
theorem reads_statements {ss : List Statement} (hw : ∀ s ∈ ss, s.WellSpelled)
    (hh : ∀ s ∈ ss, s.IsWritable) :
    ∃ texts, ss.mapM Statement.source = .ok texts ∧
      Reads ("\n".intercalate texts).toList ((ss.map Statement.sourceTree).flatMap Statement.yield)
        Anywhere := by
  induction ss with
  | nil => exact ⟨[], rfl, Reads.nil⟩
  | cons s ss ih =>
    obtain ⟨hws, hwss⟩ := List.forall_mem_cons.mp hw
    obtain ⟨hhs, hhss⟩ := List.forall_mem_cons.mp hh
    obtain ⟨text, htext, hreads⟩ := reads_statement hws hhs
    obtain ⟨texts, htexts, hothers⟩ := ih hwss hhss
    refine ⟨text :: texts, ?_, ?_⟩
    · rw [List.mapM_cons, htext, htexts]
      rfl
    · rw [List.map_cons, List.flatMap_cons]
      cases texts with
      | nil =>
        have hall := hreads.append hothers fun _ _ => trivial
        simpa using hall
      | cons next texts =>
        have hnewline : Reads ['\n'] [] Anywhere := reads_layout rfl rfl rfl (by decide)
        have hrest := hnewline.append hothers fun _ _ => trivial
        have hall := hreads.append hrest fun _ _ => trivial
        rw [String.intercalate_cons_cons, String.append_assoc, String.toList_append,
          String.toList_append]
        exact hall

/-- Scanning a text that may end where it does finds nothing wrong and gives its tokens, up to their
lines. -/
theorem scan_of_reads_end {text : String} {σs : List Symbol} {P : List Char → Prop}
    (h : Reads text.toList σs P) (hend : P []) :
    (scan text).errors = [] ∧ ∃ ts last, (scan text).tokens = ts ++ [.ending last] ∧
      (ts.map Token.unplaced).map Token.symbol = σs := by
  obtain ⟨found, hfound, hsound, hsymbols⟩ := h [] hend
  rw [List.append_nil, show segments [] = [] by rw [segments], List.append_nil] at hfound
  obtain ⟨ts, last, hts, hmap⟩ := map_unplaced_tokensOf found 1
  refine ⟨?_, ts, last, ?_, ?_⟩
  · rw [scan_errors, hfound]
    exact errorsOf_of_isSound hsound 1
  · rw [scan_tokens, hfound, hts]
  · rw [hmap, hsymbols]

/-- Scanning such texts finds nothing wrong and gives the tokens of the trees, up to their lines. -/
theorem scan_of_reads {text : String} {σs : List Symbol} (h : Reads text.toList σs Anywhere) :
    (scan text).errors = [] ∧ ∃ ts last, (scan text).tokens = ts ++ [.ending last] ∧
      (ts.map Token.unplaced).map Token.symbol = σs := scan_of_reads_end h trivial

end ExprScript
