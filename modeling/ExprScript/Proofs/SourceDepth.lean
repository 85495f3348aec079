import ExprScript.Proofs.DepthGuard
import ExprScript.Proofs.Nesting
import ExprScript.Proofs.Scripts
import ExprScript.Proofs.SourceReading

namespace ExprScript

/-- The token can stand in source text: an operator is spelled like its kind, a name is one, and a
string has no double quote in it. -/
structure Token.WellSpelled (t : Token) : Prop where
  unary : ∀ op ∈ UnaryOp.ofKind? t.kind, t.lexeme = op.spelling
  binary : ∀ op ∈ BinaryOp.ofKind? t.kind, t.lexeme = op.spelling
  name : t.kind = .identifier → IsName t.lexeme
  text : ∀ s, t.datum = .value (.text s) → '\x22' ∉ s.toList

/-- A token without a datum is no string, and only names and operators have a spelling to keep. -/
theorem Token.WellSpelled.of_datum {t : Token} (hdatum : t.datum = .nil)
    (hunary : ∀ op ∈ UnaryOp.ofKind? t.kind, t.lexeme = op.spelling)
    (hbinary : ∀ op ∈ BinaryOp.ofKind? t.kind, t.lexeme = op.spelling)
    (hname : t.kind = .identifier → IsName t.lexeme) : t.WellSpelled := by
  refine ⟨hunary, hbinary, hname, fun s hs => ?_⟩
  rw [hdatum] at hs
  cases hs

theorem Lexeme.token_wellSpelled {text : List Char} {m : Meaning} (h : Lexeme text m) {t : Token}
    (ht : (⟨text, m⟩ : Segment).token? = some t) : t.WellSpelled := by
  cases h with
  | blank hc => cases ht
  | comment hbody => cases ht
  | @keyword word kind h =>
    have hall : ∀ e ∈ Kind.keywords, UnaryOp.ofKind? e.2 = none ∧ BinaryOp.ofKind? e.2 = none ∧
        e.2 ≠ .identifier := by decide
    obtain ⟨hunary, hbinary, hname⟩ := hall _ h
    obtain rfl := Option.some.inj ht
    exact .of_datum rfl (by simp [hunary]) (by simp [hbinary]) fun hk => absurd hk hname
  | @name c cs hc hcs hword =>
    obtain ⟨hstart, hcharacters, hnone⟩ := name_cases hc hcs hword
    obtain rfl := Option.some.inj ht
    refine .of_datum rfl (by simp [UnaryOp.ofKind?]) (by simp [BinaryOp.ofKind?]) fun _ => ?_
    exact ⟨c, cs, String.toList_ofList, hstart, hcharacters, hnone⟩
  | numeral h =>
    obtain rfl := Option.some.inj ht
    refine ⟨by simp [UnaryOp.ofKind?], by simp [BinaryOp.ofKind?], fun hk => ?_, fun s hs => ?_⟩
    · cases hk
    · cases hs
  | string hbody =>
    obtain rfl := Option.some.inj ht
    refine ⟨by simp [UnaryOp.ofKind?], by simp [BinaryOp.ofKind?], fun hk => ?_, fun s hs => ?_⟩
    · cases hk
    · cases hs
      rwa [String.toList_ofList]
  | @mark text kind h =>
    have hall : ∀ e ∈ marks, (∀ op ∈ UnaryOp.ofKind? e.2, e.1 = op.spelling) ∧
        (∀ op ∈ BinaryOp.ofKind? e.2, e.1 = op.spelling) ∧ e.2 ≠ .identifier := by decide
    obtain ⟨hunary, hbinary, hname⟩ := hall _ h
    obtain rfl := Option.some.inj ht
    apply Token.WellSpelled.of_datum rfl
    · simpa only [String.ofList_toList] using hunary
    · simpa only [String.ofList_toList] using hbinary
    · exact fun hk => absurd hk hname

theorem Leads.token_wellSpelled {cs : List Char} {s : Segment} (h : Leads cs s) {t : Token}
    (ht : s.token? = some t) : t.WellSpelled := by
  cases h with
  | lexeme h hfront hlongest => exact h.token_wellSpelled ht
  | stray h _ => cases h <;> cases ht

theorem wellSpelled_of_mem_scan {source : String} {t : Token} (h : t ∈ (scan source).tokens) :
    t.WellSpelled := by
  obtain ⟨ts, last, htokens, hpieces⟩ := exists_scan_pieces source
  rw [htokens] at h
  rcases List.mem_append.mp h with ht | ht
  · obtain ⟨cs, s, hleads, hst⟩ := hpieces t ht
    obtain ⟨hunary, hbinary, hname, htext⟩ := hleads.token_wellSpelled (t := t.unplaced) hst
    exact ⟨hunary, hbinary, hname, htext⟩
  · obtain rfl := List.mem_singleton.mp ht
    exact .of_datum rfl (by simp [Token.ending, UnaryOp.ofKind?])
      (by simp [Token.ending, BinaryOp.ofKind?]) fun hk => by cases hk

namespace Expression

theorem wellSpelled_of_yield {e : Expression}
    (h : ∀ σ ∈ e.yield, ∃ t : Token, t.WellSpelled ∧ t.symbol = σ) : e.WellSpelled := by
  induction e with
  | literal v =>
    cases v with
    | text s =>
      obtain ⟨t, ht, hsymbol⟩ := h _ (List.mem_singleton.mpr rfl)
      exact ht.text s (Token.of_symbol_literal hsymbol).2
    | _ => trivial
  | group inner ih => exact ih fun σ hσ => h σ (by simp [yield, hσ])
  | unary op operand ih =>
    obtain ⟨t, ht, hsymbol⟩ := h (.operator op.unaryToken) (by simp [yield])
    obtain rfl := Token.eq_of_symbol_operator hsymbol
    refine ⟨ht.unary _ (UnaryOp.ofKind?_eq_some_iff.mpr rfl), ih fun σ hσ => h σ ?_⟩
    simp [yield, hσ]
  | binary left op right ihl ihr =>
    obtain ⟨t, ht, hsymbol⟩ := h (.operator op.binaryToken) (by simp [yield])
    obtain rfl := Token.eq_of_symbol_operator hsymbol
    refine ⟨ihl fun σ hσ => h σ ?_, ht.binary _ (BinaryOp.ofKind?_eq_some_iff.mpr rfl),
      ihr fun σ hσ => h σ ?_⟩
    · simp [yield, hσ]
    · simp [yield, hσ]
  | «variable» name =>
    obtain ⟨t, ht, hsymbol⟩ := h _ (List.mem_singleton.mpr rfl)
    obtain ⟨rfl, hk⟩ := Token.eq_of_symbol_name hsymbol
    exact ht.name hk

/-- An expression that is read from text can be spelled in source text. -/
theorem wellSpelled_of_read {text : String} {e : Expression}
    (h : (Grammar.wholeExpression (scan text).tokens).result = .ok e) : e.WellSpelled := by
  obtain ⟨front, t, rest, hsplit, -, hspelled⟩ :=
    Grammar.spelled_of_wholeExpression (fun t ht => carries_of_mem_scan ht) h
  apply wellSpelled_of_yield
  intro σ hσ
  rw [← hspelled.yields] at hσ
  obtain ⟨u, hu, rfl⟩ := List.mem_map.mp hσ
  exact ⟨u, wellSpelled_of_mem_scan (hsplit ▸ List.mem_append_left _ hu), rfl⟩

theorem height_le_of_writeSource {e : Expression} {height : Nat} {text : String}
    (h : e.writeSource height = .ok text) : e.height ≤ height := by
  induction e generalizing height text with
  | literal v =>
    cases height with
    | zero => cases h
    | succ height => exact Nat.succ_le_succ (Nat.zero_le _)
  | group inner ih =>
    cases height with
    | zero => cases h
    | succ height =>
      obtain ⟨inside, hinner, -⟩ := exists_of_bind_ok h
      exact Nat.succ_le_succ (ih hinner)
  | unary op operand ih =>
    cases height with
    | zero => cases h
    | succ height =>
      obtain ⟨inside, hoperand, -⟩ := exists_of_bind_ok h
      exact Nat.succ_le_succ (ih hoperand)
  | binary left op right ihl ihr =>
    cases height with
    | zero => cases h
    | succ height =>
      obtain ⟨first, hleft, hbehind⟩ := exists_of_bind_ok h
      obtain ⟨second, hright, -⟩ := exists_of_bind_ok hbehind
      exact Nat.succ_le_succ (Nat.max_le.mpr ⟨ihl hleft, ihr hright⟩)
  | «variable» name =>
    cases height with
    | zero => cases h
    | succ height => exact Nat.succ_le_succ (Nat.zero_le _)

theorem spells_of_source {e : Expression} (hw : e.WellSpelled) {text : String}
    (h : e.source = .ok text) : Spells text.toList e.sourceTree := by
  obtain ⟨written, hwritten, hspells⟩ := spells_expression hw (height_le_of_writeSource h)
  obtain rfl := Except.ok.inj (hwritten.symm.trans h)
  exact hspells

/-- The source text of a number nests at most one group and a sign. -/
theorem nesting_number_le (x : Float) : (Number.sourceTree x).nesting ≤ Grammar.groupCost + 1 := by
  unfold Number.sourceTree
  split
  · decide
  split
  · split <;> decide
  split <;> simp [nesting, Nat.add_comm]

/-- Each level of a tree adds at most a group and a prefix operator to the nesting of its source
text. -/
theorem nesting_sourceTree_le (e : Expression) :
    e.sourceTree.nesting ≤ (Grammar.groupCost + 1) * e.height := by
  induction e with
  | literal v =>
    cases v with
    | number x => exact nesting_number_le x
    | _ => exact Nat.zero_le _
  | group inner ih =>
    simp only [sourceTree, nesting, height, Nat.mul_add_one]
    omega
  | unary op operand ih =>
    simp only [sourceTree, nesting, height, Nat.mul_add_one]
    omega
  | binary left op right ihl ihr =>
    have hlevels {n : Nat} (hn : n ≤ max left.height right.height) :=
      Nat.mul_le_mul_left (Grammar.groupCost + 1) hn
    have hleft := hlevels (Nat.le_max_left _ _)
    have hright := hlevels (Nat.le_max_right _ _)
    simp only [sourceTree, nesting, height, Nat.mul_add_one]
    omega
  | «variable» name => exact Nat.zero_le _

/-- The source text of an expression never nests less than the expression. -/
theorem nesting_le_sourceTree (e : Expression) : e.nesting ≤ e.sourceTree.nesting := by
  induction e with
  | literal v => exact Nat.zero_le _
  | group inner ih => exact Nat.add_le_add_right ih _
  | unary op operand ih =>
    simp only [sourceTree, nesting]
    omega
  | binary left op right ihl ihr =>
    simp only [sourceTree, nesting]
    omega
  | «variable» name => exact Nat.zero_le _

/-- A text that spells a tree which nests too deep is not read. -/
theorem wholeExpression_tooDeep_of_spells {text : String} {e : Expression}
    (h : Spells text.toList e) (ho : e.RespectsPrecedence)
    (hn : Grammar.nestingLimit < e.nesting) :
    ∃ t rest, Grammar.wholeExpression (scan text).tokens =
      ⟨.error (.violation ⟨t, .tooDeep⟩), t :: rest⟩ := by
  obtain ⟨-, ts, last, f, htokens, hyield, hof, rfl⟩ := scan_of_spells h ho
  rw [f.nesting_unplaced] at hn
  rw [htokens]
  exact Grammar.wholeExpression_tooDeep hyield hof rfl hn

/-- The source text of an expression that was read scans without an error, and it is read exactly
when its tree nests no deeper than a reading may go. That is so if the expression is low enough for
a group and a prefix operator on each of its levels. The text nests at least as deep as the
expression does, so what could be read need not be readable once it is printed. -/
theorem source_read_unless_deep {text printed : String} {e : Expression}
    (hread : (Grammar.wholeExpression (scan text).tokens).result = .ok e)
    (hprint : e.source = .ok printed) :
    (scan printed).errors = [] ∧
    (e.sourceTree.nesting ≤ Grammar.nestingLimit →
      ∃ f last, Grammar.wholeExpression (scan printed).tokens = ⟨.ok f, [.ending last]⟩ ∧
        f.unplaced = e.sourceTree ∧ ∀ b, f.gist b = e.gist b) ∧
    (Grammar.nestingLimit < e.sourceTree.nesting →
      ∃ t rest, Grammar.wholeExpression (scan printed).tokens =
        ⟨.error (.violation ⟨t, .tooDeep⟩), t :: rest⟩) ∧
    e.nesting ≤ e.sourceTree.nesting ∧
    e.sourceTree.nesting ≤ (Grammar.groupCost + 1) * e.height := by
  have hw := wellSpelled_of_read hread
  have hspells := spells_of_source hw hprint
  have ho := e.respectsPrecedence_sourceTree
  refine ⟨(scan_of_spells hspells ho).1, fun hn => ?_,
    wholeExpression_tooDeep_of_spells hspells ho, e.nesting_le_sourceTree, e.nesting_sourceTree_le⟩
  obtain ⟨f, last, hagain, hf⟩ := wholeExpression_of_spells hspells ho hn
  refine ⟨f, last, hagain, hf, fun b => ?_⟩
  rw [← f.gist_unplaced, hf, gist_sourceTree b hw]

/-- Source text does not show on which lines the tokens of an expression stood. -/
theorem sourceTree_unplaced (e : Expression) : e.unplaced.sourceTree = e.sourceTree := by
  induction e with
  | literal v => rfl
  | group inner ih => rw [unplaced, sourceTree, ih, sourceTree]
  | unary op operand ih => rw [unplaced, sourceTree, ih, sourceTree]; rfl
  | binary left op right ihl ihr => rw [unplaced, sourceTree, ihl, ihr, sourceTree]; rfl
  | «variable» name => rfl

/-- Comparisons of nothing with nothing, the one compared in turn with nothing, and so on. -/
def comparisons : Nat → Expression
  | 0 => .literal .nil
  | count + 1 => .binary (comparisons count) BinaryOp.equal.spelled (.literal .nil)

def comparisonsText : Nat → List Char
  | 0 => ['n', 'i', 'l']
  | count + 1 => comparisonsText count ++ [' ', '=', '=', ' ', 'n', 'i', 'l']

def inParentheses (count : Nat) (cs : List Char) : List Char :=
  List.replicate count '(' ++ cs ++ List.replicate count ')'

section

variable (count : Nat)

theorem spells_comparisons : Spells (comparisonsText count) (comparisons count) := by
  induction count with
  | zero => exact spells_nil
  | succ count ih => exact ih.binary .equal spells_nil

theorem respectsPrecedence_comparisons : (comparisons count).RespectsPrecedence := by
  induction count with
  | zero => trivial
  | succ count ih => exact ⟨ih, trivial, Nat.zero_le _, by decide⟩

/-- A chain of binary operators does not nest at all. -/
theorem nesting_comparisons : (comparisons count).nesting = 0 := by
  induction count with
  | zero => rfl
  | succ count ih =>
    rw [comparisons, nesting, ih]
    rfl

theorem height_comparisons : (comparisons count).height = count + 1 := by
  induction count with
  | zero => rfl
  | succ count ih =>
    rw [comparisons, height, ih]
    simp [height]

/-- In source text each operator of the chain has a group of its own around what is in front. -/
theorem nesting_sourceTree_comparisons :
    (comparisons count).sourceTree.nesting = Grammar.groupCost * count := by
  induction count with
  | zero => rfl
  | succ count ih =>
    rw [comparisons, sourceTree, nesting, nesting, ih]
    simp [sourceTree, nesting, Nat.mul_add_one]

theorem exists_value_comparisons (b : Bindings) : ∃ v, (comparisons count).value b = .ok v := by
  induction count with
  | zero => exact ⟨.nil, rfl⟩
  | succ count ih =>
    obtain ⟨v, hv⟩ := ih
    refine ⟨.bool (v.same .nil), ?_⟩
    rw [comparisons, value, hv]
    rfl

variable (e : Expression)

theorem nesting_groups :
    (group^[count] e).nesting = e.nesting + Grammar.groupCost * count := by
  induction count with
  | zero => rfl
  | succ count ih => rw [Function.iterate_succ_apply', nesting, ih, Nat.mul_add_one, Nat.add_assoc]

theorem sourceTree_groups : (group^[count] e).sourceTree = group^[count] e.sourceTree := by
  induction count with
  | zero => rfl
  | succ count ih => rw [Function.iterate_succ_apply', sourceTree, ih, Function.iterate_succ_apply']

theorem value_groups (b : Bindings) : (group^[count] e).value b = e.value b := by
  induction count with
  | zero => rfl
  | succ count ih => rw [Function.iterate_succ_apply', value, ih]

theorem respectsPrecedence_groups :
    (group^[count] e).RespectsPrecedence ↔ e.RespectsPrecedence := by
  induction count with
  | zero => rfl
  | succ count ih => rw [Function.iterate_succ_apply', RespectsPrecedence, ih]

theorem spells_inParentheses {cs : List Char} {e : Expression} (h : Spells cs e) :
    Spells (inParentheses count cs) (group^[count] e) := by
  induction count with
  | zero => simpa [inParentheses] using h
  | succ count ih =>
    have hclose : List.replicate (count + 1) ')' = List.replicate count ')' ++ [')'] :=
      List.replicate_succ'
    rw [Function.iterate_succ_apply', inParentheses, hclose, List.replicate_succ]
    simpa [inParentheses] using ih.group

end

/-- Such a chain in groups is read, printed and evaluated as long as the groups are not too many
and the tree is not too high. -/
theorem exists_read_comparisons (groups count : Nat)
    (hn : Grammar.groupCost * groups ≤ Grammar.nestingLimit)
    (hh : count + 1 + groups ≤ sourceLimit) :
    ∃ e printed,
      (Grammar.wholeExpression
        (scan (.ofList (inParentheses groups (comparisonsText count)))).tokens).result = .ok e ∧
      e.source = .ok printed ∧ (∃ v, e.evaluate .empty = .ok v) ∧
      e.sourceTree.nesting = Grammar.groupCost * (count + groups) := by
  let tree := group^[groups] (comparisons count)
  have hspells :
      Spells (String.ofList (inParentheses groups (comparisonsText count))).toList tree := by
    rw [String.toList_ofList]
    exact spells_inParentheses groups (spells_comparisons count)
  have hnesting : tree.nesting ≤ Grammar.nestingLimit := by
    rw [nesting_groups, nesting_comparisons, Nat.zero_add]
    exact hn
  obtain ⟨e, last, hread, he⟩ := wholeExpression_of_spells hspells
    ((respectsPrecedence_groups groups _).mpr (respectsPrecedence_comparisons count)) hnesting
  have hresult := congrArg Reply.result hread
  have hheight : e.height ≤ sourceLimit := by
    rw [← e.height_unplaced, he, height_groups, height_comparisons]
    exact hh
  obtain ⟨printed, hprinted, -⟩ := spells_expression (wellSpelled_of_read hresult) hheight
  refine ⟨e, printed, hresult, hprinted, ?_, ?_⟩
  · obtain ⟨v, hv⟩ := exists_value_comparisons count .empty
    have hvalue : e.value .empty = .ok v := by
      rw [← gist_eq_ok, ← gist_unplaced, he, gist_eq_ok, value_groups, hv]
    refine ⟨v, ?_⟩
    rw [evaluate, evaluateWithin_eq _ (hheight.trans (by decide)), hvalue]
    rfl
  · rw [← sourceTree_unplaced, he, sourceTree_groups, nesting_groups,
      nesting_sourceTree_comparisons, Nat.mul_add]

/-- Behind a hundred parentheses 65 comparisons are read. They are printed behind 165, which are
refused as too deep. -/
theorem source_read_unless_deep_comparisons :
    let text : String := .ofList (inParentheses 100 (comparisonsText 65))
    ∃ e printed, (Grammar.wholeExpression (scan text).tokens).result = .ok e ∧
      e.source = .ok printed ∧ (scan printed).errors = [] ∧
      ∃ t rest, Grammar.wholeExpression (scan printed).tokens =
        ⟨.error (.violation ⟨t, .tooDeep⟩), t :: rest⟩ := by
  intro text
  obtain ⟨e, printed, hread, hprint, -, hnesting⟩ :=
    exists_read_comparisons 100 65 (by decide) (by decide)
  obtain ⟨hclean, -, hdeep, -⟩ := source_read_unless_deep hread hprint
  exact ⟨e, printed, hread, hprint, hclean, hdeep (by rw [hnesting]; decide)⟩

/-- So not all source text of an expression that was read and that has a value can be read. -/
theorem source_always_read_false :
    ¬ ∀ (text printed : String) (e : Expression),
      (Grammar.wholeExpression (scan text).tokens).result = .ok e → e.source = .ok printed →
      (∃ v, e.evaluate .empty = .ok v) →
      ∃ f, (Grammar.wholeExpression (scan printed).tokens).result = .ok f := by
  intro hall
  obtain ⟨e, printed, hread, hprint, hvalue, hnesting⟩ :=
    exists_read_comparisons 100 65 (by decide) (by decide)
  obtain ⟨f, hf⟩ := hall _ printed e hread hprint hvalue
  have hspells := spells_of_source (wellSpelled_of_read hread) hprint
  obtain ⟨t, rest, hdeep⟩ := wholeExpression_tooDeep_of_spells hspells
    e.respectsPrecedence_sourceTree (by rw [hnesting]; decide)
  rw [hdeep] at hf
  cases hf

end Expression

end ExprScript
