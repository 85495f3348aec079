import ExprScript.Expression.Source
import ExprScript.Proofs.Lexemes

namespace ExprScript

/-- The operator as source text spells it. -/
def UnaryOp.spelled (op : UnaryOp) : Operator UnaryOp := ⟨op, op.spelling, .nil, 0⟩

/-- The operator as source text spells it. -/
def BinaryOp.spelled (op : BinaryOp) : Operator BinaryOp := ⟨op, op.spelling, .nil, 0⟩

/-- The name as source text spells it. -/
def Token.spelledName (lexeme : String) : Token := ⟨.identifier, lexeme, .nil, 0⟩

namespace Number

/-- The numbers that the numerals of a single zero and a single one stand for. -/
def zero : Float := (spelledDecimal ['0'] []).toFloat false

def one : Float := (spelledDecimal ['1'] []).toFloat false

/-- The tree of the source text of a number. -/
def sourceTree (x : Float) : Expression :=
  let zero : Expression := .literal (.number zero)
  let one : Expression := .literal (.number one)
  if x.isNaN then .group (.binary zero BinaryOp.divide.spelled zero)
  else if x.isInf then
    .group (.binary (if isNegative x then .unary UnaryOp.negate.spelled one else one)
      BinaryOp.divide.spelled zero)
  else if isNegative x then
    .group (.unary UnaryOp.negate.spelled (.literal (.number (unsigned x))))
  else .literal (.number (unsigned x))

end Number

namespace Expression

/-- The tree that the source text of an expression stands for: every operator in a group, negative
numbers as negations and numbers that are not finite as divisions. -/
def sourceTree : Expression → Expression
  | .literal (.number x) => Number.sourceTree x
  | .literal v => .literal v
  | .group inner => .group inner.sourceTree
  | .unary op operand => .group (.unary op.op.spelled operand.sourceTree)
  | .binary left op right => .group (.binary left.sourceTree op.op.spelled right.sourceTree)
  | .variable name => .variable (.spelledName name.lexeme)

end Expression

/-- The name can stand in source text. -/
def IsName (name : String) : Prop :=
  ∃ c cs, name.toList = c :: cs ∧ isWordStart c = true ∧ (∀ d ∈ cs, isWordCharacter d = true) ∧
    Kind.keywords.lookup name = none

namespace Expression

/-- Every operator is spelled like its kind, every name is one and no string has a double quote
in it. -/
def WellSpelled : Expression → Prop
  | .literal (.text s) => '\x22' ∉ s.toList
  | .literal _ => True
  | .group inner => inner.WellSpelled
  | .unary op operand => op.lexeme = op.op.spelling ∧ operand.WellSpelled
  | .binary left op right =>
    left.WellSpelled ∧ op.lexeme = op.op.spelling ∧ right.WellSpelled
  | .variable name => IsName name.lexeme

end Expression

namespace Statement

/-- The tree that the source text of a statement stands for. -/
def sourceTree : Statement → Statement
  | .expression e => .expression e.sourceTree
  | .print e => .print e.sourceTree
  | .declare name initial => .declare (.spelledName name.lexeme) (initial.map Expression.sourceTree)

/-- The expression in a statement and the name that it declares can be spelled. -/
def WellSpelled : Statement → Prop
  | .expression e => e.WellSpelled
  | .print e => e.WellSpelled
  | .declare name initial => IsName name.lexeme ∧ ∀ e ∈ initial, e.WellSpelled

end Statement

theorem UnaryOp.reads (op : UnaryOp) :
    Reads op.spelling.toList [.operator op.spelled.unaryToken] NotEquals := by
  cases op with
  | not => exact @reads_alone '!' .bang .bangEqual rfl rfl
  | negate => exact (@reads_single '-' .minus rfl).mono fun _ _ => trivial

theorem Apart.notEquals {rest : List Char} (h : Apart rest) : NotEquals rest := by
  intro d hd
  rcases h d hd with rfl | rfl | rfl | rfl <;> decide

theorem BinaryOp.reads (op : BinaryOp) :
    Reads op.spelling.toList [.operator op.spelled.binaryToken] Apart := by
  cases op with
  | notEqual => exact (@reads_paired '!' .bang .bangEqual rfl rfl).mono fun _ _ => trivial
  | equal => exact (@reads_paired '=' .equal .equalEqual rfl rfl).mono fun _ _ => trivial
  | greater => exact (@reads_alone '>' .greater .greaterEqual rfl rfl).mono fun _ => Apart.notEquals
  | greaterEqual =>
    exact (@reads_paired '>' .greater .greaterEqual rfl rfl).mono fun _ _ => trivial
  | less => exact (@reads_alone '<' .less .lessEqual rfl rfl).mono fun _ => Apart.notEquals
  | lessEqual => exact (@reads_paired '<' .less .lessEqual rfl rfl).mono fun _ _ => trivial
  | subtract => exact (@reads_single '-' .minus rfl).mono fun _ _ => trivial
  | add => exact (@reads_single '+' .plus rfl).mono fun _ _ => trivial
  | divide => exact reads_slash
  | multiply => exact (@reads_single '*' .star rfl).mono fun _ _ => trivial

/-- The characters spell the expression in front of a character that stands apart. They do not start
with an equals sign, which would be taken for a part of an operator. -/
structure Spells (cs : List Char) (e : Expression) : Prop where
  reads : Reads cs e.yield Apart
  starts : ∀ rest, NotEquals (cs ++ rest)

theorem notEquals_cons {c : Char} (h : c ≠ '=') (cs : List Char) : NotEquals (c :: cs) := by
  intro d hd
  obtain rfl := Option.some.inj hd
  exact h

theorem reads_space : Reads [' '] [] Anywhere := reads_layout rfl rfl rfl (by decide)

theorem apart_cons {c : Char} (h : c = ' ' ∨ c = ')' ∨ c = ';' ∨ c = '\n') (cs : List Char) :
    Apart (c :: cs) := by
  intro d hd
  obtain rfl := Option.some.inj hd
  exact h

namespace Spells

variable {cs ds : List Char} {e f : Expression}

theorem group (h : Spells cs e) : Spells ('(' :: (cs ++ [')'])) (.group e) := by
  have hopen : Reads ['('] [.mark .leftParen] Anywhere := @reads_single '(' .leftParen rfl
  have hclose : Reads [')'] [.mark .rightParen] Anywhere := @reads_single ')' .rightParen rfl
  have hinner := h.reads.append hclose fun rest _ => apart_cons (by simp) rest
  constructor
  · have hall := hopen.append hinner fun _ _ => trivial
    exact hall.mono fun _ _ => trivial
  · exact fun rest => notEquals_cons (by decide) _

theorem unary (op : UnaryOp) (h : Spells cs e) :
    Spells (op.spelling.toList ++ cs) (.unary op.spelled e) := by
  constructor
  · exact op.reads.append h.reads fun rest _ => h.starts rest
  · intro rest
    cases op with
    | not => exact notEquals_cons (show '!' ≠ '=' by decide) _
    | negate => exact notEquals_cons (show '-' ≠ '=' by decide) _

theorem binary (op : BinaryOp) (h : Spells cs e) (hd : Spells ds f) :
    Spells (cs ++ ([' '] ++ (op.spelling.toList ++ ([' '] ++ ds)))) (.binary e op.spelled f) := by
  constructor
  · have hright := reads_space.append hd.reads fun _ _ => trivial
    have hop := op.reads.append hright fun rest _ => apart_cons (by simp) _
    have hleft := reads_space.append hop fun _ _ => trivial
    have hall := h.reads.append hleft fun rest _ => apart_cons (by simp) _
    simpa [Expression.yield] using hall
  · intro rest
    rw [List.append_assoc]
    exact h.starts _

theorem word {c : Char} (hc : isWordStart c = true) (hcs : ∀ d ∈ cs, isWordCharacter d = true)
    (he : e.yield =
      [(⟨Kind.ofWord (.ofList (c :: cs)), .ofList (c :: cs), .nil, 0⟩ : Token).symbol]) :
    Spells (c :: cs) e := by
  constructor
  · rw [he]
    exact reads_word hc hcs
  · exact fun rest => notEquals_cons (ne_of_class hc rfl) _

theorem ofName {name : String} (h : IsName name) :
    Spells name.toList (.variable (.spelledName name)) := by
  obtain ⟨c, cs, hname, hc, hcs, hword⟩ := h
  have hof : String.ofList (c :: cs) = name := by rw [← hname, String.ofList_toList]
  rw [hname]
  apply word hc hcs
  rw [hof, Kind.ofWord, hword]
  rfl

theorem text {s : String} (h : '\x22' ∉ s.toList) :
    Spells ('\x22' :: (s.toList ++ ['\x22'])) (.literal (.text s)) := by
  constructor
  · have hreads := reads_string h
    rw [String.ofList_toList] at hreads
    exact hreads.mono fun _ _ => trivial
  · exact fun rest => notEquals_cons (by decide) _

theorem number {whole fraction : List Char} (h : Number.AreDigits whole fraction) {x : Float}
    (hx : Number.Numeral.read? (Number.pointed whole fraction) = some x) :
    Spells (Number.pointed whole fraction) (.literal (.number x)) := by
  constructor
  · exact reads_numeral h hx
  · obtain ⟨c, cs, rfl⟩ := List.exists_cons_of_ne_nil h.nonempty
    have hc := ne_of_class (h.whole c (by simp)) (show Char.isDigit '=' = false from rfl)
    cases fraction with
    | nil => exact fun rest => notEquals_cons hc _
    | cons d ds => exact fun rest => notEquals_cons hc _

end Spells

theorem areDigits_singleton {c : Char} (h : c.isDigit = true) : Number.AreDigits [c] [] := by
  refine ⟨by simp, ?_, by simp⟩
  intro d hd
  rwa [List.mem_singleton.mp hd]

theorem spells_zero : Spells ['0'] (.literal (.number Number.zero)) :=
  Spells.number (areDigits_singleton rfl) (Number.Numeral.read?_pointed (areDigits_singleton rfl))

theorem spells_one : Spells ['1'] (.literal (.number Number.one)) :=
  Spells.number (areDigits_singleton rfl) (Number.Numeral.read?_pointed (areDigits_singleton rfl))

/-- The source text of a number spells its tree. -/
theorem spells_number (x : Float) : Spells (Number.source x).toList (Number.sourceTree x) := by
  unfold Number.source Number.sourceTree
  split
  · exact (spells_zero.binary .divide spells_zero).group
  · rename_i hnan
    split
    · split
      · exact ((spells_one.unary .negate).binary .divide spells_zero).group
      · exact (spells_one.binary .divide spells_zero).group
    · rename_i hinf
      have hfinite :=
        Number.magnitudeBits_lt (Bool.eq_false_iff.mpr hnan) (Bool.eq_false_iff.mpr hinf)
      obtain ⟨whole, fraction, hdigits, htext, hread, -⟩ := Number.exists_writeMagnitude hfinite
      have hmagnitude := Spells.number hdigits hread
      rw [htext]
      split
      · have hnegative := (hmagnitude.unary .negate).group
        simpa [String.toList_append, UnaryOp.spelling] using hnegative
      · simpa using hmagnitude

theorem spells_nil : Spells ['n', 'i', 'l'] (.literal .nil) := by
  have hcs := List.all_eq_true.mp (show ['i', 'l'].all isWordCharacter = true from rfl)
  exact Spells.word (c := 'n') rfl hcs rfl

theorem spells_value {v : Value} (h : (Expression.literal v).WellSpelled) :
    ∃ text, v.source = .ok text ∧ Spells text.toList (Expression.literal v).sourceTree := by
  cases v with
  | nil => exact ⟨"nil", rfl, spells_nil⟩
  | bool b =>
    cases b with
    | true =>
      have hcs := List.all_eq_true.mp (show ['r', 'u', 'e'].all isWordCharacter = true from rfl)
      exact ⟨"true", rfl, Spells.word (c := 't') rfl hcs rfl⟩
    | false =>
      have hcs :=
        List.all_eq_true.mp (show ['a', 'l', 's', 'e'].all isWordCharacter = true from rfl)
      exact ⟨"false", rfl, Spells.word (c := 'f') rfl hcs rfl⟩
  | number x => exact ⟨_, rfl, spells_number x⟩
  | text s =>
    change '\x22' ∉ s.toList at h
    refine ⟨"\"" ++ s ++ "\"", ?_, ?_⟩
    · simp only [Value.source]
      rw [if_neg (by simpa using h)]
    · have hall := Spells.text (s := s) h
      simpa [String.toList_append, Expression.sourceTree] using hall

theorem exists_eq_succ_of_height_le {e : Expression} {height : Nat} (h : e.height ≤ height) :
    ∃ n, height = n + 1 := by
  have hpos : 0 < e.height := by cases e <;> simp [Expression.height]
  exact ⟨height - 1, by omega⟩

/-- An expression that is not too high has a source text, which spells its tree. -/
theorem spells_expression {e : Expression} (hw : e.WellSpelled) {height : Nat}
    (hh : e.height ≤ height) :
    ∃ text, e.writeSource height = .ok text ∧ Spells text.toList e.sourceTree := by
  obtain ⟨height, rfl⟩ := exists_eq_succ_of_height_le hh
  induction e generalizing height with
  | literal v => exact spells_value hw
  | group inner ih =>
    have hinner : inner.height ≤ height := Nat.le_of_succ_le_succ hh
    obtain ⟨height, rfl⟩ := exists_eq_succ_of_height_le hinner
    obtain ⟨text, htext, hspells⟩ := ih hw height hinner
    refine ⟨"(" ++ text ++ ")", ?_, ?_⟩
    · rw [Expression.writeSource, htext]
      rfl
    · simpa [String.toList_append, Expression.sourceTree] using hspells.group
  | unary op operand ih =>
    obtain ⟨hop, hw⟩ := hw
    have hoperand : operand.height ≤ height := Nat.le_of_succ_le_succ hh
    obtain ⟨height, rfl⟩ := exists_eq_succ_of_height_le hoperand
    obtain ⟨text, htext, hspells⟩ := ih hw height hoperand
    refine ⟨"(" ++ op.lexeme ++ text ++ ")", ?_, ?_⟩
    · rw [Expression.writeSource, htext]
      rfl
    · rw [hop]
      simpa [String.toList_append, Expression.sourceTree] using (hspells.unary op.op).group
  | binary left op right ihl ihr =>
    obtain ⟨hwl, hop, hwr⟩ := hw
    have hboth : max left.height right.height ≤ height := Nat.le_of_succ_le_succ hh
    obtain ⟨hleft, hright⟩ := Nat.max_le.mp hboth
    obtain ⟨height, rfl⟩ := exists_eq_succ_of_height_le hleft
    obtain ⟨first, hfirst, hspellsl⟩ := ihl hwl height hleft
    obtain ⟨second, hsecond, hspellsr⟩ := ihr hwr height hright
    refine ⟨"(" ++ first ++ " " ++ op.lexeme ++ " " ++ second ++ ")", ?_, ?_⟩
    · rw [Expression.writeSource, hfirst]
      change (do let second ← right.writeSource (height + 1); _) = _
      rw [hsecond]
      rfl
    · rw [hop]
      simpa [String.toList_append, Expression.sourceTree] using
        (hspellsl.binary op.op hspellsr).group
  | «variable» name => exact ⟨name.lexeme, rfl, Spells.ofName hw⟩

end ExprScript
