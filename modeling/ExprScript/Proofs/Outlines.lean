import ExprScript.Expression.Outline
import ExprScript.Proofs.NumberTexts
import ExprScript.Proofs.SourceReading

namespace ExprScript

/-- The pieces of outlines: a node without parts, the start of a node with parts and its end. -/
inductive Piece where
  | leaf (text : String)
  | node (name : String)
  | ending
deriving DecidableEq

/-- The characters of a piece, with the space in front of it. -/
def Piece.text : Piece → List Char
  | .leaf t => ' ' :: t.toList
  | .node name => ' ' :: '(' :: name.toList
  | .ending => [')']

/-- No character ends a word. -/
def IsWord (cs : List Char) : Prop := ∀ c ∈ cs, (c ≠ ' ' && c ≠ ')') = true

/-- In front of the end or a character that ends words. -/
def BehindPiece (rest : List Char) : Prop := ∀ c ∈ rest.head?, (c ≠ ' ' && c ≠ ')') = false

/-- The texts of nodes without parts: words that start like no other piece, and strings. -/
inductive IsLeaf : List Char → Prop where
  | word {c : Char} {cs : List Char} (h : IsWord (c :: cs)) (hc : c ≠ '(' ∧ c ≠ '\x22') :
    IsLeaf (c :: cs)
  | string {body : List Char} (h : '\x22' ∉ body) : IsLeaf ('\x22' :: (body ++ ['\x22']))

/-- The end of a piece shows in the text. -/
def Piece.IsClear : Piece → Prop
  | .leaf t => IsLeaf t.toList
  | .node name => IsWord name.toList
  | .ending => True

section Cutting

variable {xs ys r s : List Char}

theorem IsWord.append_inj (hx : IsWord xs) (hy : IsWord ys) (hr : BehindPiece r)
    (hs : BehindPiece s) (h : xs ++ r = ys ++ s) : xs = ys ∧ r = s := by
  have htake := congrArg (List.takeWhile fun c => c ≠ ' ' && c ≠ ')') h
  have hdrop := congrArg (List.dropWhile fun c => c ≠ ' ' && c ≠ ')') h
  rw [takeWhile_front hx hr, takeWhile_front hy hs] at htake
  rw [dropWhile_front hx hr, dropWhile_front hy hs] at hdrop
  exact ⟨htake, hdrop⟩

theorem IsLeaf.append_inj (hx : IsLeaf xs) (hy : IsLeaf ys) (hr : BehindPiece r)
    (hs : BehindPiece s) (h : xs ++ r = ys ++ s) : xs = ys ∧ r = s := by
  cases hx with
  | word hx hc =>
    cases hy with
    | word hy _ => exact hx.append_inj hy hr hs h
    | string _ => exact absurd (List.cons.inj h).1 hc.2
  | string hx =>
    cases hy with
    | word _ hc => exact absurd (List.cons.inj h).1.symm hc.2
    | string hy =>
      rw [List.cons_append, List.cons_append, List.append_assoc, List.append_assoc] at h
      obtain ⟨rfl, hbehind⟩ := append_mark_inj hx hy (List.cons.inj h).2
      exact ⟨rfl, hbehind⟩

theorem IsLeaf.ne_node (hx : IsLeaf xs) (rest others : List Char) : xs ++ rest ≠ '(' :: others := by
  intro h
  cases hx with
  | word _ hc => exact hc.1 (List.cons.inj h).1
  | string _ =>
    have hquote : '\x22' = '(' := (List.cons.inj h).1
    cases hquote

theorem Piece.text_append_inj {p q : Piece} (hp : p.IsClear) (hq : q.IsClear) (hr : BehindPiece r)
    (hs : BehindPiece s) (h : p.text ++ r = q.text ++ s) : p = q ∧ r = s := by
  cases p with
  | leaf t =>
    cases q with
    | leaf u =>
      obtain ⟨htext, hrest⟩ := IsLeaf.append_inj hp hq hr hs (List.cons.inj h).2
      exact ⟨congrArg leaf (String.toList_inj.mp htext), hrest⟩
    | node name => exact absurd (List.cons.inj h).2 (IsLeaf.ne_node hp _ _)
    | ending => cases (List.cons.inj h).1
  | node name =>
    cases q with
    | leaf u => exact absurd (List.cons.inj h).2.symm (IsLeaf.ne_node hq _ _)
    | node other =>
      have hnames := (List.cons.inj (List.cons.inj h).2).2
      obtain ⟨hname, hrest⟩ := IsWord.append_inj hp hq hr hs hnames
      exact ⟨congrArg node (String.toList_inj.mp hname), hrest⟩
    | ending => cases (List.cons.inj h).1
  | ending =>
    cases q with
    | ending => exact ⟨rfl, (List.cons.inj h).2⟩
    | _ => cases (List.cons.inj h).1

end Cutting

theorem Piece.exists_text (p : Piece) :
    ∃ c cs, p.text = c :: cs ∧ (c ≠ ' ' && c ≠ ')') = false := by
  cases p with
  | leaf t => exact ⟨' ', _, rfl, rfl⟩
  | node name => exact ⟨' ', _, rfl, rfl⟩
  | ending => exact ⟨')', _, rfl, rfl⟩

theorem behindPiece_flatMap (ps : List Piece) : BehindPiece (ps.flatMap Piece.text) := by
  cases ps with
  | nil => simp [BehindPiece]
  | cons p ps =>
    obtain ⟨c, cs, htext, hc⟩ := p.exists_text
    intro d hd
    rw [List.flatMap_cons, htext] at hd
    obtain rfl := Option.some.inj hd
    exact hc

/-- A text falls into clear pieces in one way only. -/
theorem flatMap_text_inj {ps qs : List Piece} (hp : ∀ p ∈ ps, p.IsClear) (hq : ∀ q ∈ qs, q.IsClear)
    (h : ps.flatMap Piece.text = qs.flatMap Piece.text) : ps = qs := by
  induction ps generalizing qs with
  | nil =>
    cases qs with
    | nil => rfl
    | cons q qs =>
      obtain ⟨c, cs, htext, -⟩ := q.exists_text
      simp [htext] at h
  | cons p ps ih =>
    cases qs with
    | nil =>
      obtain ⟨c, cs, htext, -⟩ := p.exists_text
      simp [htext] at h
    | cons q qs =>
      obtain ⟨hp, hps⟩ := List.forall_mem_cons.mp hp
      obtain ⟨hq, hqs⟩ := List.forall_mem_cons.mp hq
      obtain ⟨rfl, hrest⟩ := Piece.text_append_inj hp hq (behindPiece_flatMap ps)
        (behindPiece_flatMap qs) h
      rw [ih hps hqs hrest]

namespace Expression

/-- Every number in the expression is finite. -/
def FiniteNumbers : Expression → Prop
  | .literal (.number x) => x.isFinite = true
  | .literal _ => True
  | .group inner => inner.FiniteNumbers
  | .unary _ operand => operand.FiniteNumbers
  | .binary left _ right => left.FiniteNumbers ∧ right.FiniteNumbers
  | .variable _ => True

/-- The pieces of the outline of an expression. -/
def pieces : Expression → List Piece
  | .literal v => [.leaf v.outline]
  | .group inner => .node "group" :: (inner.pieces ++ [.ending])
  | .unary op operand => .node op.lexeme :: (operand.pieces ++ [.ending])
  | .binary left op right => .node op.lexeme :: (left.pieces ++ (right.pieces ++ [.ending]))
  | .variable name => [.leaf name.lexeme]

theorem flatMap_pieces (e : Expression) :
    e.pieces.flatMap Piece.text = ' ' :: e.outline.toList := by
  induction e with
  | literal v => simp [pieces, Piece.text, outline]
  | group inner ih => simp [pieces, Piece.text, outline, ih]
  | unary op operand ih => simp [pieces, Piece.text, outline, ih]
  | binary left op right ihl ihr => simp [pieces, Piece.text, outline, ihl, ihr]
  | «variable» name => simp [pieces, Piece.text, outline]

end Expression

namespace Statement

/-- The pieces of the outline of a statement. -/
def pieces : Statement → List Piece
  | .expression e => .node ";" :: (e.pieces ++ [.ending])
  | .print e => .node "print" :: (e.pieces ++ [.ending])
  | .declare name none => [.node "var", .leaf name.lexeme, .ending]
  | .declare name (some e) =>
    .node "var" :: .leaf name.lexeme :: .leaf "=" :: (e.pieces ++ [.ending])

theorem flatMap_pieces (s : Statement) : s.pieces.flatMap Piece.text = ' ' :: s.outline.toList := by
  match s with
  | .expression e | .print e => simp [pieces, Piece.text, outline, e.flatMap_pieces]
  | .declare name none => simp [pieces, Piece.text, outline]
  | .declare name (some e) => simp [pieces, Piece.text, outline, e.flatMap_pieces]

end Statement

theorem isLeaf_of_word {c : Char} {cs : List Char} (hc : isWordStart c = true)
    (hcs : ∀ d ∈ cs, isWordCharacter d = true) : IsLeaf (c :: cs) := by
  refine .word (List.forall_mem_cons.mpr ⟨?_, fun d hd => ?_⟩)
    ⟨ne_of_class hc rfl, ne_of_class hc rfl⟩
  · simp [ne_of_class hc (d := ' ') rfl, ne_of_class hc (d := ')') rfl]
  · simp [ne_of_class (hcs d hd) (d := ' ') rfl, ne_of_class (hcs d hd) (d := ')') rfl]

theorem IsName.isLeaf {name : String} (h : IsName name) : IsLeaf name.toList := by
  obtain ⟨c, cs, hname, hc, hcs, -⟩ := h
  rw [hname]
  exact isLeaf_of_word hc hcs

theorem Number.Decimal.IsInner.ne {c d : Char} (hc : IsInner c) (hdigit : d.isDigit = false)
    (hd : d ∉ ['.', 'e', '-', '+']) : c ≠ d := by
  rintro rfl
  rcases hc with hc | hc
  · rw [hdigit] at hc
    cases hc
  · exact hd hc

theorem Number.isLeaf_write {x : Float} (h : x.isFinite = true) : IsLeaf (write .display x) := by
  obtain ⟨c, cs, htext, -, hinner⟩ := write_characters h
  rw [htext]
  refine .word (fun d hd => ?_) ⟨?_, ?_⟩
  · have hne := hinner d hd
    simp [hne.ne (d := ' ') rfl (by decide), hne.ne (d := ')') rfl (by decide)]
  · exact (hinner c (by simp)).ne rfl (by decide)
  · exact (hinner c (by simp)).ne rfl (by decide)

/-- What a node without parts starts with. -/
inductive Initial where
  | letter | digit | quote
deriving DecidableEq

def Initial.of (c : Char) : Initial :=
  if isWordStart c then .letter else if c = '\x22' then .quote else .digit

/-- What the outline of a value starts with. -/
def Value.initial : Value → Initial
  | .nil | .bool _ => .letter
  | .number _ => .digit
  | .text _ => .quote

/-- The outline of the value can be told from all others. -/
def Value.IsLegible (v : Value) : Prop :=
  (Expression.literal v).WellSpelled ∧ (Expression.literal v).FiniteNumbers

namespace Value

theorem isLeaf_outline {v : Value} (h : v.IsLegible) : IsLeaf v.outline.toList := by
  cases v with
  | nil =>
    have hcs := List.all_eq_true.mp (show ['i', 'l'].all isWordCharacter = true from rfl)
    exact isLeaf_of_word (c := 'n') rfl hcs
  | bool b =>
    cases b with
    | true =>
      have hcs := List.all_eq_true.mp (show ['r', 'u', 'e'].all isWordCharacter = true from rfl)
      exact isLeaf_of_word (c := 't') rfl hcs
    | false =>
      have hcs :=
        List.all_eq_true.mp (show ['a', 'l', 's', 'e'].all isWordCharacter = true from rfl)
      exact isLeaf_of_word (c := 'f') rfl hcs
  | number x =>
    rw [outline, display, String.toList_ofList]
    · exact Number.isLeaf_write h.2
    · rintro s ⟨⟩
  | text s =>
    have hbody : '\x22' ∉ s.toList := h.1
    simpa [outline] using IsLeaf.string hbody

theorem exists_initial {v : Value} (h : v.IsLegible) :
    ∃ c cs, v.outline.toList = c :: cs ∧ Initial.of c = v.initial := by
  cases v with
  | nil => exact ⟨'n', _, rfl, rfl⟩
  | bool b =>
    cases b with
    | true => exact ⟨'t', _, rfl, rfl⟩
    | false => exact ⟨'f', _, rfl, rfl⟩
  | number x =>
    obtain ⟨c, cs, htext, hc, -⟩ := Number.write_characters h.2
    refine ⟨c, cs, by simpa [outline, display] using htext, ?_⟩
    rcases hc with hc | rfl
    · have hletter : isWordStart c = false := by
        rw [Bool.eq_false_iff]
        intro hword
        rw [isDigit_of_isWordStart hword] at hc
        cases hc
      simp [Initial.of, hletter, ne_of_class hc (d := '\x22') rfl, initial]
    · rfl
  | text s => exact ⟨'\x22', s.toList ++ ['\x22'], by simp [outline], rfl⟩

/-- Different values have different outlines. -/
theorem outline_injective {v w : Value} (hv : v.IsLegible) (hw : w.IsLegible)
    (h : v.outline = w.outline) : v = w := by
  have hinitial : v.initial = w.initial := by
    obtain ⟨c, cs, htext, hc⟩ := exists_initial hv
    obtain ⟨d, ds, hother, hd⟩ := exists_initial hw
    rw [h, hother] at htext
    rw [← hc, ← hd, (List.cons.inj htext).1]
  cases v with
  | nil =>
    cases w with
    | nil => rfl
    | bool b => cases b <;> simp [outline, display] at h
    | _ => cases hinitial
  | bool a =>
    cases w with
    | nil => cases a <;> simp [outline, display] at h
    | bool b => cases a <;> cases b <;> simp [outline, display] at h ⊢
    | _ => cases hinitial
  | number x =>
    cases w with
    | number y =>
      have hwrite : Number.write .display x = Number.write .display y := String.ofList_inj.mp h
      rw [Number.write_injective hv.2 hw.2 hwrite]
    | _ => cases hinitial
  | text s =>
    cases w with
    | text t => simpa [outline] using h
    | _ => cases hinitial

/-- No name is the outline of a value. -/
theorem outline_ne_name {v : Value} (hv : v.IsLegible) {name : String} (hname : IsName name) :
    v.outline ≠ name := by
  intro h
  have hreserved : (∃ b, v = .bool b) ∨ v = .nil := by
    obtain ⟨c, cs, htext, hc, -, -⟩ := hname
    obtain ⟨d, ds, hother, hd⟩ := exists_initial hv
    rw [h, htext] at hother
    rw [← (List.cons.inj hother).1, Initial.of, if_pos hc] at hd
    cases v with
    | nil => exact .inr rfl
    | bool b => exact .inl ⟨b, rfl⟩
    | _ => cases hd
  obtain ⟨-, -, -, -, -, hword⟩ := hname
  rw [← h] at hword
  rcases hreserved with ⟨b, rfl⟩ | rfl
  · cases b <;> cases hword
  · cases hword

end Value

theorem UnaryOp.spelling_injective {a b : UnaryOp} (h : a.spelling = b.spelling) : a = b := by
  cases a <;> cases b <;> simp [spelling] at h ⊢

theorem BinaryOp.spelling_injective {a b : BinaryOp} (h : a.spelling = b.spelling) : a = b := by
  cases a <;> cases b <;> simp [spelling] at h ⊢

/-- The text has no space and no parenthesis in it. -/
theorem isWord_of_all {s : String}
    (h : s.toList.all (fun c => c ≠ ' ' && c ≠ ')') = true) : IsWord s.toList :=
  List.all_eq_true.mp h

theorem UnaryOp.isWord_spelling (op : UnaryOp) : IsWord op.spelling.toList := by
  cases op <;> exact isWord_of_all rfl

theorem BinaryOp.isWord_spelling (op : BinaryOp) : IsWord op.spelling.toList := by
  cases op <;> exact isWord_of_all rfl

namespace Expression

theorem isClear_pieces {e : Expression} (hw : e.WellSpelled) (hn : e.FiniteNumbers) :
    ∀ p ∈ e.pieces, p.IsClear := by
  induction e with
  | literal v => simpa [pieces, Piece.IsClear] using Value.isLeaf_outline ⟨hw, hn⟩
  | group inner ih =>
    have hname : IsWord "group".toList := isWord_of_all rfl
    simp only [pieces, List.forall_mem_cons, List.forall_mem_append]
    exact ⟨hname, ih hw hn, trivial, by simp⟩
  | unary op operand ih =>
    have hname : IsWord op.lexeme.toList := by
      rw [hw.1]
      exact op.op.isWord_spelling
    simp only [pieces, List.forall_mem_cons, List.forall_mem_append]
    exact ⟨hname, ih hw.2 hn, trivial, by simp⟩
  | binary left op right ihl ihr =>
    have hname : IsWord op.lexeme.toList := by
      rw [hw.2.1]
      exact op.op.isWord_spelling
    simp only [pieces, List.forall_mem_cons, List.forall_mem_append]
    exact ⟨hname, ihl hw.1 hn.1, ihr hw.2.2 hn.2, trivial, by simp⟩
  | «variable» name => simpa [pieces, Piece.IsClear] using IsName.isLeaf hw

/-- The names of the nodes with parts. -/
def nodeNames : List String :=
  ["group", "!", "-", "!=", "==", ">", ">=", "<", "<=", "+", "/", "*"]

/-- An expression starts with a node. -/
theorem exists_pieces {e : Expression} (hw : e.WellSpelled) :
    ∃ p ps, e.pieces = p :: ps ∧ ((∃ t, p = .leaf t) ∨ ∃ name ∈ nodeNames, p = .node name) := by
  cases e with
  | literal v => exact ⟨_, _, rfl, .inl ⟨_, rfl⟩⟩
  | group inner => exact ⟨_, _, rfl, .inr ⟨_, by decide, rfl⟩⟩
  | unary op operand =>
    refine ⟨_, _, rfl, .inr ⟨op.lexeme, ?_, rfl⟩⟩
    rw [hw.1]
    cases op.op <;> decide
  | binary left op right =>
    refine ⟨_, _, rfl, .inr ⟨op.lexeme, ?_, rfl⟩⟩
    rw [hw.2.1]
    cases op.op <;> decide
  | «variable» name => exact ⟨_, _, rfl, .inl ⟨_, rfl⟩⟩

/-- No node ends where an expression starts. -/
theorem pieces_ne_ending {e : Expression} (hw : e.WellSpelled) (r s : List Piece) :
    .ending :: r ≠ e.pieces ++ s := by
  obtain ⟨p, ps, hpieces, hp⟩ := exists_pieces hw
  rw [hpieces]
  rcases hp with ⟨t, rfl⟩ | ⟨name, -, rfl⟩ <;> simp

theorem group_ne_unary (op : UnaryOp) : "group" ≠ op.spelling := by
  cases op <;> simp [UnaryOp.spelling]

theorem group_ne_binary (op : BinaryOp) : "group" ≠ op.spelling := by
  cases op <;> simp [BinaryOp.spelling]

/-- The pieces of an expression determine it, and where it ends among others. -/
theorem pieces_append_inj {e f : Expression} (he : e.WellSpelled) (hen : e.FiniteNumbers)
    (hf : f.WellSpelled) (hfn : f.FiniteNumbers) {r s : List Piece}
    (h : e.pieces ++ r = f.pieces ++ s) : e.spelled = f.spelled ∧ r = s := by
  induction e generalizing f r s with
  | literal v =>
    cases f with
    | literal w =>
      obtain ⟨houtline, hrest⟩ := List.cons.inj h
      have hvalue := Value.outline_injective ⟨he, hen⟩ ⟨hf, hfn⟩ (Piece.leaf.inj houtline)
      exact ⟨by rw [hvalue], hrest⟩
    | «variable» name =>
      have houtline := Piece.leaf.inj (List.cons.inj h).1
      exact absurd houtline (Value.outline_ne_name ⟨he, hen⟩ hf)
    | _ => cases (List.cons.inj h).1
  | group inner ih =>
    cases f with
    | group other =>
      simp only [pieces, List.cons_append, List.append_assoc, List.cons.injEq] at h
      obtain ⟨hinner, hrest⟩ := ih he hen (f := other) hf hfn h.2
      exact ⟨by rw [spelled, spelled, hinner], (List.cons.inj hrest).2⟩
    | unary op operand =>
      have hname := (Piece.node.inj (List.cons.inj h).1).trans hf.1
      exact absurd hname (group_ne_unary op.op)
    | binary left op right =>
      have hname := (Piece.node.inj (List.cons.inj h).1).trans hf.2.1
      exact absurd hname (group_ne_binary op.op)
    | _ => cases (List.cons.inj h).1
  | unary op operand ih =>
    cases f with
    | group other =>
      have hname := (Piece.node.inj (List.cons.inj h).1).symm.trans he.1
      exact absurd hname (group_ne_unary op.op)
    | unary other operand' =>
      simp only [pieces, List.cons_append, List.append_assoc, List.cons.injEq,
        Piece.node.injEq] at h
      obtain ⟨hoperand, hrest⟩ := ih he.2 hen hf.2 hfn h.2
      have hop : op.op = other.op :=
        UnaryOp.spelling_injective (he.1.symm.trans (h.1.trans hf.1))
      exact ⟨by rw [spelled, spelled, hoperand, hop, h.1], (List.cons.inj hrest).2⟩
    | binary left other right =>
      -- Behind the first operand one node ends and the other goes on.
      simp only [pieces, List.cons_append, List.append_assoc, List.cons.injEq] at h
      obtain ⟨-, hrest⟩ := ih he.2 hen hf.1 hfn.1 h.2
      exact absurd hrest (pieces_ne_ending hf.2.2 _ _)
    | _ => cases (List.cons.inj h).1
  | binary left op right ihl ihr =>
    cases f with
    | group other =>
      have hname := (Piece.node.inj (List.cons.inj h).1).symm.trans he.2.1
      exact absurd hname (group_ne_binary op.op)
    | unary other operand =>
      simp only [pieces, List.cons_append, List.append_assoc, List.cons.injEq] at h
      obtain ⟨-, hrest⟩ := ihl he.1 hen.1 hf.2 hfn h.2
      exact absurd hrest.symm (pieces_ne_ending he.2.2 _ _)
    | binary left' other right' =>
      simp only [pieces, List.cons_append, List.append_assoc, List.cons.injEq,
        Piece.node.injEq] at h
      obtain ⟨hleft, hbehind⟩ := ihl he.1 hen.1 hf.1 hfn.1 h.2
      obtain ⟨hright, hrest⟩ := ihr he.2.2 hen.2 hf.2.2 hfn.2 hbehind
      have hop : op.op = other.op :=
        BinaryOp.spelling_injective (he.2.1.symm.trans (h.1.trans hf.2.1))
      exact ⟨by rw [spelled, spelled, hleft, hright, hop, h.1], (List.cons.inj hrest).2⟩
    | _ => cases (List.cons.inj h).1
  | «variable» name =>
    cases f with
    | literal w =>
      have houtline := Piece.leaf.inj (List.cons.inj h).1
      exact absurd houtline.symm (Value.outline_ne_name ⟨hf, hfn⟩ he)
    | «variable» other =>
      obtain ⟨hname, hrest⟩ := List.cons.inj h
      exact ⟨by rw [spelled, spelled, Piece.leaf.inj hname], hrest⟩
    | _ => cases (List.cons.inj h).1

end Expression

namespace Statement

/-- Every number in the statement is finite. -/
def FiniteNumbers (s : Statement) : Prop := ∀ e ∈ s.expression?, e.FiniteNumbers

/-- The statement with nothing left of its operators and names but what their lexemes spell. -/
def spelled : Statement → Statement
  | .expression e => .expression e.spelled
  | .print e => .print e.spelled
  | .declare name initial => .declare (.spelledName name.lexeme) (initial.map Expression.spelled)

/-- The operators and names carry nothing that their lexemes do not show. -/
def IsPlain : Statement → Prop
  | .expression e => e.IsPlain
  | .print e => e.IsPlain
  | .declare name initial =>
    (name.kind = .identifier ∧ name.datum = .nil) ∧ ∀ e ∈ initial, e.IsPlain

theorem IsPlain.spelled_eq {s : Statement} (h : s.IsPlain) : s.spelled = s.unplaced := by
  cases s with
  | expression e => rw [spelled, unplaced, Expression.IsPlain.spelled_eq h]
  | print e => rw [spelled, unplaced, Expression.IsPlain.spelled_eq h]
  | declare name initial =>
    obtain ⟨kind, lexeme, datum, line⟩ := name
    obtain ⟨⟨rfl, rfl⟩, hinitial⟩ := h
    cases initial with
    | none => rfl
    | some e =>
      rw [spelled, unplaced, Option.map_some, Option.map_some, (hinitial e rfl).spelled_eq]
      rfl

theorem isClear_pieces {s : Statement} (hw : s.WellSpelled) (hn : s.FiniteNumbers) :
    ∀ p ∈ s.pieces, p.IsClear := by
  have hmark : IsLeaf ['='] := .word (List.all_eq_true.mp rfl) (by decide)
  have hprint : IsWord "print".toList := isWord_of_all rfl
  have hvar : IsWord "var".toList := isWord_of_all rfl
  have hsemicolon : IsWord ";".toList := isWord_of_all rfl
  match s with
  | .expression e =>
    simp only [pieces, List.forall_mem_cons, List.forall_mem_append]
    exact ⟨hsemicolon, e.isClear_pieces hw (hn e rfl), trivial, by simp⟩
  | .print e =>
    simp only [pieces, List.forall_mem_cons, List.forall_mem_append]
    exact ⟨hprint, e.isClear_pieces hw (hn e rfl), trivial, by simp⟩
  | .declare name none =>
    simp only [pieces, List.forall_mem_cons]
    exact ⟨hvar, hw.1.isLeaf, trivial, by simp⟩
  | .declare name (some e) =>
    simp only [pieces, List.forall_mem_cons, List.forall_mem_append]
    exact ⟨hvar, hw.1.isLeaf, hmark, e.isClear_pieces (hw.2 e rfl) (hn e rfl), trivial, by simp⟩

/-- The pieces of a statement determine it. -/
theorem pieces_inj {s t : Statement} (hs : s.WellSpelled) (hsn : s.FiniteNumbers)
    (ht : t.WellSpelled) (htn : t.FiniteNumbers) (h : s.pieces = t.pieces) :
    s.spelled = t.spelled := by
  match s, t with
  | .expression e, .expression f =>
    have hsame := (List.cons.inj h).2
    obtain ⟨he, -⟩ := Expression.pieces_append_inj hs (hsn e rfl) ht (htn f rfl) hsame
    rw [spelled, spelled, he]
  | .print e, .print f =>
    have hsame := (List.cons.inj h).2
    obtain ⟨he, -⟩ := Expression.pieces_append_inj hs (hsn e rfl) ht (htn f rfl) hsame
    rw [spelled, spelled, he]
  | .declare name none, .declare other none =>
    have hname := Piece.leaf.inj (List.cons.inj (List.cons.inj h).2).1
    rw [spelled, spelled, hname]
  | .declare name (some e), .declare other (some f) =>
    obtain ⟨hname, hinitial⟩ := List.cons.inj (List.cons.inj h).2
    have hsame := (List.cons.inj hinitial).2
    obtain ⟨he, -⟩ :=
      Expression.pieces_append_inj (hs.2 e rfl) (hsn e rfl) (ht.2 f rfl) (htn f rfl) hsame
    simp only [spelled, Piece.leaf.inj hname, Option.map_some, he]
  | .declare _ none, .declare _ (some _) | .declare _ (some _), .declare _ none
  | .expression _, .print _ | .expression _, .declare _ none | .expression _, .declare _ (some _)
  | .print _, .expression _ | .print _, .declare _ none | .print _, .declare _ (some _)
  | .declare _ none, .expression _ | .declare _ none, .print _
  | .declare _ (some _), .expression _ | .declare _ (some _), .print _ => simp [pieces] at h

/-- No statement has the pieces of an expression. -/
theorem pieces_ne_expression (s : Statement) {e : Expression} (he : e.WellSpelled) :
    s.pieces ≠ e.pieces := by
  obtain ⟨p, ps, hpieces, hp⟩ := Expression.exists_pieces he
  obtain ⟨name, qs, hnode, hname⟩ :
      ∃ name qs, s.pieces = .node name :: qs ∧ name ∈ [";", "print", "var"] := by
    match s with
    | .expression e => exact ⟨_, _, rfl, by decide⟩
    | .print e => exact ⟨_, _, rfl, by decide⟩
    | .declare name none => exact ⟨_, _, rfl, by decide⟩
    | .declare name (some e) => exact ⟨_, _, rfl, by decide⟩
  rw [hpieces, hnode]
  intro h
  rcases hp with ⟨t, rfl⟩ | ⟨other, hother, rfl⟩
  · cases (List.cons.inj h).1
  · have hapart : ∀ name ∈ [";", "print", "var"], name ∉ Expression.nodeNames := by decide
    have hsame := Piece.node.inj (List.cons.inj h).1
    exact hapart name hname (hsame ▸ hother)

end Statement

/-- What an outline is made of. -/
inductive Node where
  | expression (e : Expression)
  | statement (s : Statement)

namespace Node

/-- The outline of a node that is not too high. -/
def outline? : Node → Option String
  | .expression e => e.outline?
  | .statement s => s.outline?

def WellSpelled : Node → Prop
  | .expression e => e.WellSpelled
  | .statement s => s.WellSpelled

def FiniteNumbers : Node → Prop
  | .expression e => e.FiniteNumbers
  | .statement s => s.FiniteNumbers

def IsPlain : Node → Prop
  | .expression e => e.IsPlain
  | .statement s => s.IsPlain

def spelled : Node → Node
  | .expression e => .expression e.spelled
  | .statement s => .statement s.spelled

def unplaced : Node → Node
  | .expression e => .expression e.unplaced
  | .statement s => .statement s.unplaced

def pieces : Node → List Piece
  | .expression e => e.pieces
  | .statement s => s.pieces

variable {n m : Node}

theorem IsPlain.spelled_eq (h : n.IsPlain) : n.spelled = n.unplaced := by
  cases n with
  | expression e => exact congrArg expression (Expression.IsPlain.spelled_eq h)
  | statement s => exact congrArg statement (Statement.IsPlain.spelled_eq h)

theorem isClear_pieces (hw : n.WellSpelled) (hn : n.FiniteNumbers) :
    ∀ p ∈ n.pieces, p.IsClear := by
  cases n with
  | expression e => exact e.isClear_pieces hw hn
  | statement s => exact s.isClear_pieces hw hn

theorem flatMap_pieces {text : String} (h : n.outline? = some text) :
    n.pieces.flatMap Piece.text = ' ' :: text.toList := by
  cases n with
  | expression e =>
    obtain rfl := Option.some.inj (Option.ite_none_right_eq_some.mp h).2
    exact e.flatMap_pieces
  | statement s =>
    obtain rfl := Option.some.inj (Option.ite_none_right_eq_some.mp h).2
    exact s.flatMap_pieces

/-- Pieces determine the node. -/
theorem pieces_inj (hn : n.WellSpelled) (hnn : n.FiniteNumbers) (hm : m.WellSpelled)
    (hmn : m.FiniteNumbers) (h : n.pieces = m.pieces) : n.spelled = m.spelled := by
  cases n with
  | expression e =>
    cases m with
    | expression f =>
      have hsame : e.pieces ++ [] = f.pieces ++ [] := by
        rw [List.append_nil, List.append_nil]
        exact h
      exact congrArg expression (Expression.pieces_append_inj hn hnn hm hmn hsame).1
    | statement s => exact absurd h.symm (s.pieces_ne_expression hn)
  | statement s =>
    cases m with
    | expression f => exact absurd h (s.pieces_ne_expression hm)
    | statement t => exact congrArg statement (Statement.pieces_inj hn hnn hm hmn h)

/-- The outline of an expression or a statement determines it. Two nodes whose operators and names
are spelled right, with no double quote in a string and no number that is not finite, have the same
outline only if they are the same in all that lexemes spell: kinds of nodes, operators, names and
values, of which the two zeros are different ones. Tokens that carry nothing else are then the same
up to their lines. -/
theorem outline_determines_tree {text : String} (hn : n.WellSpelled) (hnn : n.FiniteNumbers)
    (hm : m.WellSpelled) (hmn : m.FiniteNumbers) (hntext : n.outline? = some text)
    (hmtext : m.outline? = some text) :
    n.spelled = m.spelled ∧ (n.IsPlain → m.IsPlain → n.unplaced = m.unplaced) := by
  have hpieces : n.pieces = m.pieces := by
    apply flatMap_text_inj (isClear_pieces hn hnn) (isClear_pieces hm hmn)
    rw [flatMap_pieces hntext, flatMap_pieces hmtext]
  have hspelled := pieces_inj hn hnn hm hmn hpieces
  refine ⟨hspelled, fun hnp hmp => ?_⟩
  rw [← hnp.spelled_eq, ← hmp.spelled_eq, hspelled]

/-- A declaration read from two places has one outline, with a string that looks like a node. -/
theorem outline_determines_tree_declare :
    let declare (line : Int) : Node := .statement (.declare ⟨.identifier, "x", .nil, line⟩
      (some (.binary (.literal (.text ") (- y")) ⟨.add, "+", .nil, line⟩
        (.unary ⟨.negate, "-", .nil, line⟩ (.variable ⟨.identifier, "y", .nil, line⟩)))))
    (declare 1).outline? = some "(var x = (+ \") (- y\" (- y)))" ∧
      (declare 1).spelled = (declare 2).spelled ∧ (declare 1).unplaced = (declare 2).unplaced := by
  intro declare
  have hx : IsName "x" := ⟨'x', [], rfl, rfl, by simp, by decide⟩
  have hy : IsName "y" := ⟨'y', [], rfl, rfl, by simp, by decide⟩
  have hquote : '\x22' ∉ ") (- y".toList := by decide +kernel
  have hspelled (line : Int) : (declare line).WellSpelled := by
    refine ⟨hx, fun e he => ?_⟩
    obtain rfl := Option.some.inj he
    exact ⟨hquote, rfl, rfl, hy⟩
  have hfinite (line : Int) : (declare line).FiniteNumbers := by
    intro e he
    obtain rfl := Option.some.inj he
    exact ⟨trivial, trivial⟩
  have hplain (line : Int) : (declare line).IsPlain := by
    refine ⟨⟨rfl, rfl⟩, fun e he => ?_⟩
    obtain rfl := Option.some.inj he
    exact ⟨trivial, rfl, rfl, rfl, rfl⟩
  have htext : (declare 1).outline? = some "(var x = (+ \") (- y\" (- y)))" := by decide +kernel
  have hother : (declare 2).outline? = some "(var x = (+ \") (- y\" (- y)))" := by decide +kernel
  obtain ⟨hsame, hplaced⟩ := outline_determines_tree (hspelled 1) (hfinite 1) (hspelled 2)
    (hfinite 2) htext hother
  exact ⟨htext, hsame, hplaced (hplain 1) (hplain 2)⟩

end Node

end ExprScript
