import ExprScript.Number.Numeral
import ExprScript.Token
import ExprScript.Token.Problem

namespace ExprScript

def isWordStart (c : Char) : Bool := c.isAlpha || c = '_'

def isWordCharacter (c : Char) : Bool := isWordStart c || c.isDigit

/-- A place in a text, from which a caller reads on step by step, and what was found before it. -/
structure Lexer where
  start : Nat
  /-- The characters of the lexeme that are read, the nearest first. -/
  taken : List Char
  rest : List Char
  line : Int
  tokens : List Token
  errors : List LexicalError
deriving DecidableEq

namespace Lexer

def ofString (source : String) : Lexer := ⟨0, [], source.toList, 1, [], []⟩

def position (l : Lexer) : Nat := l.start + l.taken.length

def lexeme (l : Lexer) : List Char := l.taken.reverse

def isAtEnd (l : Lexer) : Bool := l.rest.isEmpty

/-- The next character, or the null character at the end. -/
def peek (l : Lexer) : Char := l.rest.headD '\x00'

/-- The character after the next one, or the null character. -/
def peekSecond (l : Lexer) : Char := (l.rest.drop 1).headD '\x00'

def restart (l : Lexer) : Lexer := { l with start := l.position, taken := [] }

def newline (l : Lexer) : Lexer := { l with line := l.line + 1 }

/-- Counts a line if the next character ends one. -/
def countLine (l : Lexer) : Lexer := if l.peek = '\n' then l.newline else l

theorem countLine_rest (l : Lexer) : l.countLine.rest = l.rest := by
  unfold countLine
  split <;> rfl

/-- Reading, which a fault breaks off. What was read before stays read. -/
abbrev Reading := EStateM LexerFault Lexer

/-- Reads one character without looking at it. -/
def advance : Reading Char := fun l =>
  match l.rest with
  | [] => .error .pastEnd l
  | c :: cs => .ok c { l with taken := c :: l.taken, rest := cs }

def accept (expected : Char) : Reading Bool := fun l =>
  match l.rest with
  | [] => .ok false l
  | c :: cs =>
    if c = expected then .ok true { l with taken := c :: l.taken, rest := cs } else .ok false l

def addToken (kind : Kind) (datum : Datum) : Reading Unit :=
  modify fun l =>
    { l with tokens := l.tokens ++ [⟨kind, String.ofList l.lexeme, datum, l.line⟩] }

def complain (what : LexicalProblem) : Reading Unit :=
  modify fun l => { l with errors := l.errors ++ [⟨l.line, what⟩] }

theorem length_rest_of_advance {l m : Lexer} {c : Char} (h : advance l = .ok c m) :
    m.rest.length < l.rest.length := by
  unfold advance at h
  split at h
  · cases h
  · rename_i hrest
    cases h
    simp [hrest]

/-- Reads on as long as a condition holds. -/
def readWhile (goesOn : Lexer → Bool) : Reading Unit := fun l =>
  if goesOn l then
    match _h : advance l with
    | .ok _ m => readWhile goesOn m
    | .error why m => .error why m
  else .ok () l
termination_by l => l.rest.length
decreasing_by exact length_rest_of_advance _h

/-- Reads the inside of a string. It may go on over lines, which are counted. -/
def readString : Reading Unit := fun l =>
  if l.peek ≠ '\x22' ∧ l.isAtEnd = false then
    match _h : advance l.countLine with
    | .ok _ m => readString m
    | .error why m => .error why m
  else .ok () l
termination_by l => l.rest.length
decreasing_by
  have shorter := length_rest_of_advance _h
  rwa [countLine_rest] at shorter

def word : Reading Unit := do
  readWhile fun l => isWordCharacter l.peek
  let l ← get
  addToken (Kind.ofWord (String.ofList l.lexeme)) .nil

/-- Reads a point and the digits behind it, if a digit is behind it. -/
def fraction : Reading Unit := do
  let l ← get
  if l.peek = '.' ∧ l.peekSecond.isDigit = true then
    let _ ← advance
    readWhile fun l => l.peek.isDigit

def addNumber : Reading Unit := do
  let l ← get
  match Number.Numeral.read? l.lexeme with
  | some x => addToken .number (.value (.number x))
  | none => throw (.illegible (String.ofList l.lexeme))

def numeral : Reading Unit := do
  readWhile fun l => l.peek.isDigit
  fraction
  addNumber

/-- Reads the rest of a string. Its value is the lexeme without the first and the last
character. -/
def string : Reading Unit := do
  readString
  if (← get).isAtEnd then complain .unterminatedString
  else
    let _ ← advance
    let l ← get
    addToken .string (.value (.text (String.ofList (l.lexeme.drop 1).dropLast)))

/-- Reads what follows a slash. Behind another one it is a comment, which leaves the end of the line
to be read. -/
def slash : Reading Unit := do
  if ← accept '/' then readWhile fun l => l.peek ≠ '\n' ∧ l.isAtEnd = false
  else addToken .slash .nil

def pair (alone paired : Kind) : Reading Unit := do
  let found ← accept '='
  addToken (if found then paired else alone) .nil

def follow (c : Char) : Reading Unit :=
  match Kind.singles.lookup c with
  | some kind => addToken kind .nil
  | none =>
    match Kind.pairs.lookup c with
    | some (alone, paired) => pair alone paired
    | none =>
      if c = '/' then slash
      else if c = ' ' ∨ c = '\r' ∨ c = '\t' then pure ()
      else if c = '\n' then modify newline
      else if c = '\x22' then string
      else if c.isDigit then numeral
      else if isWordStart c then word
      else complain .unexpectedCharacter

def step : Reading Unit := do
  let c ← advance
  follow c

/-- Reads the next lexeme, as one of its own. -/
def next : Reading Unit := do
  modify restart
  step

/-- Reading that puts no character back. -/
def Forward {α : Type} (x : Reading α) : Prop :=
  ∀ ⦃l a m⦄, x l = .ok a m → m.rest.length ≤ l.rest.length

section Forward

variable {α β : Type}

theorem forward_pure (a : α) : Forward (pure a) := by
  intro l b m h
  cases h
  exact Nat.le_refl _

theorem forward_get : Forward get := by
  intro l b m h
  cases h
  exact Nat.le_refl _

theorem forward_throw (why : LexerFault) : Forward (throw why : Reading α) := by
  intro l b m h
  cases h

theorem forward_modify {f : Lexer → Lexer} (hf : ∀ l, (f l).rest = l.rest) :
    Forward (modify f) := by
  intro l b m h
  cases h
  exact Nat.le_of_eq (congrArg List.length (hf l))

theorem Forward.bind {x : Reading α} {f : α → Reading β} (hx : Forward x)
    (hf : ∀ a, Forward (f a)) : Forward (x >>= f) := by
  intro l b m h
  change EStateM.bind x f l = .ok b m at h
  unfold EStateM.bind at h
  split at h
  · rename_i a k hfirst
    exact Nat.le_trans (hf a h) (hx hfirst)
  · cases h

theorem forward_addToken (kind : Kind) (datum : Datum) : Forward (addToken kind datum) :=
  forward_modify fun _ => rfl

theorem forward_complain (what : LexicalProblem) : Forward (complain what) :=
  forward_modify fun _ => rfl

theorem forward_advance : Forward advance := fun _ _ _ h => Nat.le_of_lt (length_rest_of_advance h)

theorem forward_accept (expected : Char) : Forward (accept expected) := by
  intro l found m h
  unfold accept at h
  split at h
  · cases h
    exact Nat.le_refl _
  · rename_i hrest
    split at h <;> cases h <;> simp [hrest]

theorem forward_readWhile (goesOn : Lexer → Bool) : Forward (readWhile goesOn) := by
  intro l a m h
  fun_induction readWhile goesOn l with
  | case1 l _ c k hfirst ih =>
    exact Nat.le_trans (ih h) (Nat.le_of_lt (length_rest_of_advance hfirst))
  | case2 => cases h
  | case3 =>
    cases h
    exact Nat.le_refl _

theorem forward_readString : Forward readString := by
  intro l a m h
  fun_induction readString l with
  | case1 l _ c k hfirst ih =>
    have shorter := length_rest_of_advance hfirst
    rw [countLine_rest] at shorter
    exact Nat.le_trans (ih h) (Nat.le_of_lt shorter)
  | case2 => cases h
  | case3 =>
    cases h
    exact Nat.le_refl _

theorem forward_word : Forward word :=
  (forward_readWhile _).bind fun _ => forward_get.bind fun _ => forward_addToken _ _

theorem forward_fraction : Forward fraction := by
  refine forward_get.bind fun l => ?_
  split
  · exact forward_advance.bind fun _ => forward_readWhile _
  · exact forward_pure _

theorem forward_addNumber : Forward addNumber := by
  refine forward_get.bind fun l => ?_
  split
  · exact forward_addToken _ _
  · exact forward_throw _

theorem forward_numeral : Forward numeral :=
  (forward_readWhile _).bind fun _ => forward_fraction.bind fun _ => forward_addNumber

theorem forward_string : Forward string := by
  refine forward_readString.bind fun _ => forward_get.bind fun l => ?_
  split
  · exact forward_complain _
  · exact forward_advance.bind fun _ => forward_get.bind fun _ => forward_addToken _ _

theorem forward_slash : Forward slash := by
  refine (forward_accept _).bind fun found => ?_
  split
  · exact forward_readWhile _
  · exact forward_addToken _ _

theorem forward_pair (alone paired : Kind) : Forward (pair alone paired) :=
  (forward_accept _).bind fun _ => forward_addToken _ _

theorem forward_follow (c : Char) : Forward (follow c) := by
  unfold follow
  split
  · exact forward_addToken _ _
  split
  · exact forward_pair _ _
  split
  · exact forward_slash
  split
  · exact forward_pure _
  split
  · exact forward_modify fun _ => rfl
  split
  · exact forward_string
  split
  · exact forward_numeral
  split
  · exact forward_word
  · exact forward_complain _

end Forward

/-- Where text is left, a step reads at least one character of it. -/
theorem length_rest_of_next {l m : Lexer} (h : next l = .ok () m) :
    m.rest.length < l.rest.length := by
  change EStateM.bind advance follow l.restart = .ok () m at h
  unfold EStateM.bind at h
  split at h
  · rename_i c k hfirst
    have shorter : k.rest.length < l.restart.rest.length := length_rest_of_advance hfirst
    exact Nat.lt_of_le_of_lt (forward_follow c h) shorter
  · cases h

/-- Reads all the rest, each lexeme as one of its own. -/
def readAll : Reading Unit := fun l =>
  if l.isAtEnd then .ok () l
  else
    match _h : next l with
    | .ok _ m => readAll m
    | .error why m => .error why m
termination_by l => l.rest.length
decreasing_by exact length_rest_of_next _h

def finish : Reading Unit := do
  readAll
  modify fun l => { l with tokens := l.tokens ++ [.ending l.line] }

end Lexer

structure Scan where
  tokens : List Token
  errors : List LexicalError
deriving DecidableEq

/-- Reads a text into tokens. A problem leaves no token and does not end the reading. -/
def scan (source : String) : Scan :=
  match Lexer.finish (.ofString source) with
  | .ok _ l | .error _ l => ⟨l.tokens, l.errors⟩

end ExprScript
