import ExprScript.Proofs.SourceRoundTrip

namespace ExprScript

namespace Number

/-- The expression that a number is written as: itself if it is finite and its sign bit is clear,
else a group around the negation or the division that gives it. -/
def embed (x : Float) : Expression :=
  if x.isNaN then .group (.binary (.literal (.number 0)) BinaryOp.divide.spelled
    (.literal (.number 0)))
  else if x.isInf then
    .group (.binary
      (if isNegative x then .unary UnaryOp.negate.spelled (.literal (.number 1))
        else .literal (.number 1))
      BinaryOp.divide.spelled (.literal (.number 0)))
  else if isNegative x then .group (.unary UnaryOp.negate.spelled (.literal (.number x.abs)))
  else .literal (.number x)

theorem abs_eq_unsigned (x : Float) : x.abs = unsigned x := by
  obtain ⟨s, e, m, hf⟩ := exists_hasFields x
  have habs : (ofFields s e m).abs = ofFields .positive e m := by
    unfold ofFields
    split
    · split <;> rfl
    split
    · split <;> rfl
    · rfl
  rw [unsigned_eq hf, ← habs, ← hf.unpack_eq]
  rfl

theorem zero_eq : zero = 0 := by decide +kernel

theorem one_eq : one = 1 := by decide +kernel

theorem sourceTree_eq_embed (x : Float) : sourceTree x = embed x := by
  unfold sourceTree embed
  rw [zero_eq, one_eq, abs_eq_unsigned]
  split
  · rfl
  · rename_i hnan
    split
    · rfl
    · split
      · rfl
      · rename_i hnegative
        rw [unsigned_eq_self (Bool.eq_false_iff.mpr hnan) (Bool.eq_false_iff.mpr hnegative)]

end Number

namespace Expression

/-- The expression with every operator in a group together with its operands, and every number as it
is written. Its own operators and names stay as they are. -/
def embed : Expression → Expression
  | .literal (.number x) => Number.embed x
  | .literal v => .literal v
  | .group inner => .group inner.embed
  | .unary op operand => .group (.unary op operand.embed)
  | .binary left op right => .group (.binary left.embed op right.embed)
  | .variable name => .variable name

/-- The expression with nothing left of its operators and names but what their lexemes spell. -/
def spelled : Expression → Expression
  | .literal v => .literal v
  | .group inner => .group inner.spelled
  | .unary op operand => .unary ⟨op.op, op.lexeme, .nil, 0⟩ operand.spelled
  | .binary left op right => .binary left.spelled ⟨op.op, op.lexeme, .nil, 0⟩ right.spelled
  | .variable name => .variable (.spelledName name.lexeme)

/-- The operators and names carry nothing that their lexemes do not show, as when they are read from
text. -/
def IsPlain : Expression → Prop
  | .literal _ => True
  | .group inner => inner.IsPlain
  | .unary op operand => op.datum = .nil ∧ operand.IsPlain
  | .binary left op right => left.IsPlain ∧ op.datum = .nil ∧ right.IsPlain
  | .variable name => name.kind = .identifier ∧ name.datum = .nil

/-- The texts of the string literals from left to right. -/
def texts : Expression → List String
  | .literal (.text s) => [s]
  | .literal _ => []
  | .group inner => inner.texts
  | .unary _ operand => operand.texts
  | .binary left _ right => left.texts ++ right.texts
  | .variable _ => []

theorem spelled_number (x : Float) : (Number.embed x).spelled = Number.embed x := by
  unfold Number.embed
  split
  · rfl
  split
  · split <;> rfl
  split <;> rfl

theorem sourceTree_eq_spelled_embed {e : Expression} (hw : e.WellSpelled) :
    e.sourceTree = e.embed.spelled := by
  induction e with
  | literal v =>
    cases v with
    | number x => exact (Number.sourceTree_eq_embed x).trans (spelled_number x).symm
    | _ => rfl
  | group inner ih => rw [sourceTree, embed, spelled, ih hw]
  | unary op operand ih =>
    obtain ⟨hop, hw⟩ := hw
    rw [sourceTree, embed, spelled, spelled, ih hw, hop]
    rfl
  | binary left op right ihl ihr =>
    obtain ⟨hwl, hop, hwr⟩ := hw
    rw [sourceTree, embed, spelled, spelled, ihl hwl, ihr hwr, hop]
    rfl
  | «variable» name => rfl

theorem nesting_spelled (e : Expression) : e.spelled.nesting = e.nesting := by
  induction e with
  | literal v => rfl
  | group inner ih => simp [spelled, nesting, ih]
  | unary op operand ih => simp [spelled, nesting, ih]
  | binary left op right ihl ihr => simp [spelled, nesting, ihl, ihr]
  | «variable» name => rfl

theorem isPlain_number (x : Float) : (Number.embed x).IsPlain := by
  unfold Number.embed
  split
  · exact ⟨trivial, rfl, trivial⟩
  split
  · split
    · exact ⟨⟨rfl, trivial⟩, rfl, trivial⟩
    · exact ⟨trivial, rfl, trivial⟩
  split
  · exact ⟨rfl, trivial⟩
  · trivial

theorem IsPlain.embed {e : Expression} (h : e.IsPlain) : e.embed.IsPlain := by
  induction e with
  | literal v =>
    cases v with
    | number x => exact isPlain_number x
    | _ => trivial
  | group inner ih => exact ih h
  | unary op operand ih => exact ⟨h.1, ih h.2⟩
  | binary left op right ihl ihr => exact ⟨ihl h.1, h.2.1, ihr h.2.2⟩
  | «variable» name => exact h

/-- The lexemes of plain operators and names spell everything but their lines. -/
theorem IsPlain.spelled_eq {e : Expression} (h : e.IsPlain) : e.spelled = e.unplaced := by
  induction e with
  | literal v => rfl
  | group inner ih => rw [spelled, unplaced, ih h]
  | unary op operand ih =>
    rw [spelled, unplaced, ih h.2, ← h.1]
    rfl
  | binary left op right ihl ihr =>
    rw [spelled, unplaced, ihl h.1, ihr h.2.2, ← h.2.1]
    rfl
  | «variable» name =>
    obtain ⟨kind, lexeme, datum, line⟩ := name
    obtain ⟨rfl, rfl⟩ := h
    rfl

end Expression

/-- No string of the language can hold the text. -/
def isUnspellable (text : String) : Bool := text.toList.contains '\x22'

/-- What an attempt to write source text tells about the texts of string literals. A success tells
that all of them can be held, a complaint about one that it is the first that cannot. It goes too
deep only under the given condition. -/
def Tells (written : Except SourceFault String) (texts : List String) (deep : Prop) : Prop :=
  match written with
  | .ok _ => texts.find? isUnspellable = none
  | .error (.unspellable s) => texts.find? isUnspellable = some s
  | .error .tooDeep => deep

namespace Tells

variable {written : Except SourceFault String} {xs ys : List String} {p q : Prop}

theorem mono (h : Tells written xs p) (hpq : p → q) : Tells written xs q := by
  cases written with
  | ok text => exact h
  | error why =>
    cases why with
    | unspellable s => exact h
    | tooDeep => exact hpq h

theorem bind (h : Tells written xs p) {next : String → Except SourceFault String}
    (hn : ∀ text, Tells (next text) ys p) : Tells (written >>= next) (xs ++ ys) p := by
  cases written with
  | ok text =>
    change xs.find? isUnspellable = none at h
    have hnext := hn text
    change Tells (next text) (xs ++ ys) p
    cases hwritten : next text with
    | ok after =>
      rw [hwritten] at hnext
      change (xs ++ ys).find? _ = _
      rw [List.find?_append, h]
      exact hnext
    | error why =>
      rw [hwritten] at hnext
      cases why with
      | unspellable s =>
        change (xs ++ ys).find? _ = _
        rw [List.find?_append, h]
        exact hnext
      | tooDeep => exact hnext
  | error why =>
    cases why with
    | unspellable s =>
      change (xs ++ ys).find? _ = _
      rw [List.find?_append, show xs.find? isUnspellable = some s from h]
      rfl
    | tooDeep => exact h

theorem done (text : String) : Tells (.ok text) [] p := rfl

end Tells

namespace Expression

theorem source_tells (v : Value) (p : Prop) : Tells v.source (literal v).texts p := by
  match v with
  | .nil | .bool true | .bool false | .number _ => rfl
  | .text s => by_cases h : '\x22' ∈ s.toList <;>
      simp [Value.source, h, Tells, texts, isUnspellable]

/-- Writing goes down the tree from left to right, as the texts do. -/
theorem writeSource_tells (e : Expression) (height : Nat) :
    Tells (e.writeSource height) e.texts (height < e.height) := by
  induction e generalizing height with
  | literal v =>
    cases height with
    | zero => exact Nat.one_pos
    | succ height => exact source_tells v _
  | group inner ih =>
    cases height with
    | zero => exact Nat.succ_pos _
    | succ height =>
      have hinner := (ih height).mono Nat.succ_lt_succ
      have hall := hinner.bind fun text => Tells.done ("(" ++ text ++ ")")
      rwa [List.append_nil] at hall
  | unary op operand ih =>
    cases height with
    | zero => exact Nat.succ_pos _
    | succ height =>
      have hoperand := (ih height).mono Nat.succ_lt_succ
      have hall := hoperand.bind fun text => Tells.done ("(" ++ op.lexeme ++ text ++ ")")
      rwa [List.append_nil] at hall
  | binary left op right ihl ihr =>
    cases height with
    | zero => exact Nat.succ_pos _
    | succ height =>
      have hdeep {n : Nat} (hn : n ≤ max left.height right.height) (h : height < n) :
          height + 1 < (binary left op right).height := Nat.succ_lt_succ (Nat.lt_of_lt_of_le h hn)
      have hleft := (ihl height).mono (hdeep (Nat.le_max_left _ _))
      have hright := (ihr height).mono (hdeep (Nat.le_max_right _ _))
      have hall := hleft.bind fun first => hright.bind fun second =>
        Tells.done ("(" ++ first ++ " " ++ op.lexeme ++ " " ++ second ++ ")")
      rwa [List.append_nil] at hall
  | «variable» name =>
    cases height with
    | zero => exact Nat.one_pos
    | succ height => rfl

/-- A complaint about a text is about the first that no string can hold. -/
theorem find?_of_unspellable {e : Expression} {s : String}
    (h : e.source = .error (.unspellable s)) : e.texts.find? isUnspellable = some s := by
  have htells := e.writeSource_tells sourceLimit
  rwa [show e.writeSource sourceLimit = .error (.unspellable s) from h] at htells

/-- If there is such a text in an expression that is not too high, there is a complaint. -/
theorem exists_unspellable {e : Expression} (hh : e.height ≤ sourceLimit) {s : String}
    (hs : s ∈ e.texts) (hquote : '\x22' ∈ s.toList) : ∃ t, e.source = .error (.unspellable t) := by
  have htells := e.writeSource_tells sourceLimit
  cases hwritten : e.writeSource sourceLimit with
  | ok text =>
    rw [hwritten] at htells
    have hnone := List.find?_eq_none.mp htells s hs
    simp [isUnspellable, hquote] at hnone
  | error why =>
    rw [hwritten] at htells
    cases why with
    | unspellable t => exact ⟨t, hwritten⟩
    | tooDeep => exact absurd hh (Nat.not_le_of_lt htells)

theorem mem_texts_of_unspellable {e : Expression} {s : String}
    (h : e.source = .error (.unspellable s)) : s ∈ e.texts ∧ '\x22' ∈ s.toList := by
  have hfind := find?_of_unspellable h
  exact ⟨List.mem_of_find?_eq_some hfind, by simpa [isUnspellable] using List.find?_some hfind⟩

/-- A text that spells a tree scans without an error into tokens of the tree, up to lines. -/
theorem scan_of_spells {text : String} {e : Expression} (h : Spells text.toList e)
    (ho : e.RespectsPrecedence) :
    (scan text).errors = [] ∧ ∃ ts last, ∃ f : Expression,
      (scan text).tokens = ts ++ [.ending last] ∧ ts.map Token.symbol = f.yield ∧
      f.RespectsPrecedence ∧ f.unplaced = e := by
  obtain ⟨hclean, ts, last, htokens, hsymbols⟩ := scan_of_reads_end h.reads (by simp [Apart])
  have hplaced : (ts.map Token.symbol).map Symbol.unplaced = e.yield := by
    rw [Token.map_symbol_unplaced, hsymbols]
  obtain ⟨f, hyield, rfl⟩ := exists_placed hplaced
  exact ⟨hclean, ts, last, f, htokens, hyield.symm, f.respectsPrecedence_unplaced.mp ho, rfl⟩

theorem wholeExpression_of_spells {text : String} {e : Expression} (h : Spells text.toList e)
    (ho : e.RespectsPrecedence) (hn : e.nesting ≤ Grammar.nestingLimit) :
    ∃ f last, Grammar.wholeExpression (scan text).tokens = ⟨.ok f, [.ending last]⟩ ∧
      f.unplaced = e := by
  obtain ⟨-, ts, last, f, htokens, hyield, hof, rfl⟩ := scan_of_spells h ho
  rw [f.nesting_unplaced] at hn
  exact ⟨f, last, htokens ▸ Grammar.wholeExpression_run hyield hof hn rfl [], rfl⟩

/-- The source text of an expression reads back as its tree. -/
theorem wholeExpression_source {e : Expression} (hw : e.WellSpelled)
    (hh : e.height ≤ sourceLimit) (hn : e.sourceTree.nesting ≤ Grammar.nestingLimit) :
    ∃ text f last, e.source = .ok text ∧ (scan text).errors = [] ∧
      Grammar.wholeExpression (scan text).tokens = ⟨.ok f, [.ending last]⟩ ∧
      f.unplaced = e.sourceTree := by
  obtain ⟨text, htext, hspells⟩ := spells_expression hw hh
  have ho := e.respectsPrecedence_sourceTree
  obtain ⟨f, last, hread, hf⟩ := wholeExpression_of_spells hspells ho hn
  exact ⟨text, f, last, htext, (scan_of_spells hspells ho).1, hread, hf⟩

/-- Source text and the expression it is written from. When the names and operators can be spelled,
no string has a double quote in it and the depths are kept to, the text scans without an error and
reads back as the embedded expression, with what the lexemes of its tokens spell. When the tokens
are plain that is all of them but their lines. An expression that is not too high is complained of
exactly when a string in it has a double quote. At any height a complaint is about the first such
string. -/
theorem source_reads_back (e : Expression) :
    (e.WellSpelled → e.height ≤ sourceLimit → e.embed.nesting ≤ Grammar.nestingLimit →
      ∃ text f last, e.source = .ok text ∧ (scan text).errors = [] ∧
        Grammar.wholeExpression (scan text).tokens = ⟨.ok f, [.ending last]⟩ ∧
        f.unplaced = e.embed.spelled ∧ (e.IsPlain → f.unplaced = e.embed.unplaced)) ∧
    (e.height ≤ sourceLimit →
      ((∃ s, e.source = .error (.unspellable s)) ↔ ∃ s ∈ e.texts, '\x22' ∈ s.toList)) ∧
    ∀ s, e.source = .error (.unspellable s) → e.texts.find? isUnspellable = some s := by
  refine ⟨fun hw hh hn => ?_, fun hh => ⟨?_, ?_⟩, fun s hs => find?_of_unspellable hs⟩
  · have htree := sourceTree_eq_spelled_embed hw
    have hnesting : e.sourceTree.nesting ≤ Grammar.nestingLimit := by
      rwa [htree, nesting_spelled]
    obtain ⟨text, f, last, htext, hclean, hread, hf⟩ := wholeExpression_source hw hh hnesting
    have hspelled := hf.trans htree
    exact ⟨text, f, last, htext, hclean, hread, hspelled,
      fun hplain => hspelled.trans hplain.embed.spelled_eq⟩
  · rintro ⟨s, hs⟩
    exact ⟨s, mem_texts_of_unspellable hs⟩
  · rintro ⟨s, hs, hquote⟩
    exact exists_unspellable hh hs hquote

/-- A difference with negative infinity reads back, and a double quote is complained of. -/
theorem source_reads_back_difference :
    let minus : Operator BinaryOp := ⟨.subtract, "-", .nil, 1⟩
    let e : Expression := .binary (.variable ⟨.identifier, "x", .nil, 1⟩) minus
      (.literal (.number (-Number.infinity)))
    let quote : Expression := .literal (.text "\"")
    (∃ text f last, e.source = .ok text ∧
      Grammar.wholeExpression (scan text).tokens = ⟨.ok f, [.ending last]⟩ ∧
      f.unplaced = e.embed.unplaced) ∧
    ∃ s, quote.source = .error (.unspellable s) ∧ quote.texts.find? isUnspellable = some s := by
  intro minus e quote
  have hname : IsName "x" := ⟨'x', [], rfl, rfl, by simp, by decide⟩
  constructor
  · obtain ⟨text, f, last, htext, -, hread, -, hf⟩ := (source_reads_back e).1
      ⟨hname, rfl, trivial⟩ (by decide +kernel) (by decide +kernel)
    exact ⟨text, f, last, htext, hread, hf ⟨⟨rfl, rfl⟩, rfl, trivial⟩⟩
  · obtain ⟨-, hquote, hfirst⟩ := source_reads_back quote
    obtain ⟨s, hs⟩ := (hquote (by decide)).mpr ⟨"\"", List.mem_singleton.mpr rfl, by decide⟩
    exact ⟨s, hs, hfirst s hs⟩

theorem texts_groups (count : Nat) (e : Expression) : (group^[count] e).texts = e.texts := by
  induction count with
  | zero => rfl
  | succ count ih => rw [Function.iterate_succ_apply', texts, ih]

/-- Too many groups are not written, whatever is in them. -/
theorem writeSource_groups {height count : Nat} (h : height ≤ count) (e : Expression) :
    (group^[count] e).writeSource height = .error .tooDeep := by
  induction height generalizing count with
  | zero => rw [writeSource]
  | succ height ih =>
    obtain ⟨count, rfl⟩ := Nat.exists_eq_add_of_le' h
    rw [← Nat.add_assoc, Function.iterate_succ_apply', writeSource, ih (Nat.le_add_left _ _)]
    rfl

/-- Inside more groups than can be written, a double quote is not complained of. -/
theorem source_groups_quote :
    let e : Expression := group^[500] (.literal (.text "\""))
    e.source = .error .tooDeep ∧
      ¬ ((∃ s, e.source = .error (.unspellable s)) ↔ ∃ s ∈ e.texts, '\x22' ∈ s.toList) := by
  intro e
  have hdeep : e.source = .error .tooDeep :=
    writeSource_groups (show sourceLimit ≤ 500 by decide) _
  refine ⟨hdeep, fun hiff => ?_⟩
  have hmem : "\"" ∈ e.texts := by
    rw [texts_groups]
    exact List.mem_singleton.mpr rfl
  obtain ⟨s, hs⟩ := hiff.mpr ⟨_, hmem, by decide⟩
  cases hdeep.symm.trans hs

/-- The text shows the lexemes of operators and names alone. What else a token made by hand says is
not read back: the datum of a minus, and the kind of a name. -/
theorem source_made_by_hand :
    let minus : Operator UnaryOp := ⟨.negate, "-", .value (.bool true), 1⟩
    let name : Token := ⟨.printWord, "x", .nil, 1⟩
    ∀ e ∈ [unary minus (.literal .nil), .variable name], e.WellSpelled ∧
      ∃ text f last, e.source = .ok text ∧
        Grammar.wholeExpression (scan text).tokens = ⟨.ok f, [.ending last]⟩ ∧
        f.unplaced ≠ e.embed.unplaced := by
  intro minus name e he
  have hname : IsName "x" := ⟨'x', [], rfl, rfl, by simp, by decide⟩
  have hfacts : e.WellSpelled ∧ e.height ≤ sourceLimit ∧
      e.sourceTree.nesting ≤ Grammar.nestingLimit ∧ e.sourceTree ≠ e.embed.unplaced := by
    rcases List.mem_pair.mp he with rfl | rfl
    · exact ⟨⟨rfl, trivial⟩, by decide, by decide, by decide⟩
    · exact ⟨hname, by decide, by decide, by decide⟩
  obtain ⟨hspelled, hheight, hnesting, hdiffers⟩ := hfacts
  obtain ⟨text, f, last, htext, -, hread, hf⟩ := wholeExpression_source hspelled hheight hnesting
  exact ⟨hspelled, text, f, last, htext, hread, hf ▸ hdiffers⟩

end Expression

end ExprScript
