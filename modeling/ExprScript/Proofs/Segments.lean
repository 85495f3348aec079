import ExprScript.Token.Lexer

namespace ExprScript

/-- What a piece of text stands for. -/
inductive Meaning where
  /-- Blanks and comments leave nothing behind. -/
  | layout
  | token (kind : Kind) (datum : Datum)
  | problem (what : LexicalProblem)
  /-- A lexeme that should be a numeral cannot be read as one. -/
  | illegible
deriving DecidableEq

/-- A stretch of text and what it stands for. -/
structure Segment where
  text : List Char
  meaning : Meaning
deriving DecidableEq

/-- A segment cut from the front of a text, and the text behind it. -/
structure Cut extends Segment where
  rest : List Char
deriving DecidableEq

/-- The blanks between tokens. -/
def isLayout (c : Char) : Bool := c = ' ' || c = '\r' || c = '\t' || c = '\n'

def newlines (cs : List Char) : Nat := cs.count '\n'

namespace Cut

/-- Cuts off the longest front whose characters have a property. -/
def along (keep : Char → Bool) (meaning : List Char → Meaning) (cs : List Char) : Cut :=
  let text := cs.takeWhile keep
  ⟨⟨text, meaning text⟩, cs.dropWhile keep⟩

/-- Puts a text in front of a cut. -/
def after (front : List Char) (cut : Cut) : Cut := { cut with text := front ++ cut.text }

/-- The rest of a word, after the part of its lexeme that is read already. -/
def word (lexeme : List Char) : List Char → Cut :=
  along isWordCharacter (fun text => .token (Kind.ofWord (String.ofList (lexeme ++ text))) .nil)

/-- A numeral's lexeme stands for the number it reads as. -/
def numeralMeaning (lexeme : List Char) : Meaning :=
  match Number.Numeral.read? lexeme with
  | some x => .token .number (.value (.number x))
  | none => .illegible

/-- The rest of a numeral. A point belongs to it only if a digit follows. -/
def numeral (lexeme cs : List Char) : Cut :=
  let whole := cs.takeWhile Char.isDigit
  match cs.dropWhile Char.isDigit with
  | '.' :: digit :: more =>
    if digit.isDigit then
      after (whole ++ ['.'])
        (along Char.isDigit (fun text => numeralMeaning (lexeme ++ whole ++ '.' :: text))
          (digit :: more))
    else ⟨⟨whole, numeralMeaning (lexeme ++ whole)⟩, '.' :: digit :: more⟩
  | rest => ⟨⟨whole, numeralMeaning (lexeme ++ whole)⟩, rest⟩

/-- The rest of a string, up to its closing quote. Its value is the lexeme without the first and
the last character. -/
def string (lexeme cs : List Char) : Cut :=
  let text := cs.takeWhile (· ≠ '\x22')
  match cs.dropWhile (· ≠ '\x22') with
  | [] => ⟨⟨text, .problem .unterminatedString⟩, []⟩
  | quote :: rest =>
    let value := ((lexeme ++ text ++ [quote]).drop 1).dropLast
    ⟨⟨text ++ [quote], .token .string (.value (.text (String.ofList value)))⟩, rest⟩

/-- A slash, or with another slash a comment up to the end of the line. -/
def slash : List Char → Cut
  | '/' :: more => after ['/'] (along (· ≠ '\n') (fun _ => .layout) more)
  | rest => ⟨⟨[], .token .slash .nil⟩, rest⟩

/-- A character that an equals sign may follow. -/
def pair (alone paired : Kind) : List Char → Cut
  | '=' :: rest => ⟨⟨['='], .token paired .nil⟩, rest⟩
  | rest => ⟨⟨[], .token alone .nil⟩, rest⟩

/-- What follows a character that is read already and ends the given lexeme. -/
def follow (lexeme : List Char) (c : Char) (cs : List Char) : Cut :=
  match Kind.singles.lookup c with
  | some kind => ⟨⟨[], .token kind .nil⟩, cs⟩
  | none =>
    match Kind.pairs.lookup c with
    | some (alone, paired) => pair alone paired cs
    | none =>
      if c = '/' then slash cs
      else if isLayout c then ⟨⟨[], .layout⟩, cs⟩
      else if c = '\x22' then string lexeme cs
      else if c.isDigit then numeral lexeme cs
      else if isWordStart c then word lexeme cs
      else ⟨⟨[], .problem .unexpectedCharacter⟩, cs⟩

/-- The segment at the front of a text, after the part of its lexeme that is read already. -/
def first (lexeme : List Char) (c : Char) (cs : List Char) : Cut :=
  after [c] (follow (lexeme ++ [c]) c cs)

/-- A cut loses no character. -/
def Joins (cut : Cut) (cs : List Char) : Prop := cut.text ++ cut.rest = cs

theorem along_joins (keep : Char → Bool) (meaning : List Char → Meaning) (cs : List Char) :
    (along keep meaning cs).Joins cs := List.takeWhile_append_dropWhile

theorem Joins.after {cut : Cut} {cs : List Char} (h : cut.Joins cs) (front : List Char) :
    (after front cut).Joins (front ++ cs) := by
  simp only [Joins, Cut.after, List.append_assoc]
  exact congrArg (front ++ ·) h

theorem numeral_joins (lexeme cs : List Char) : (numeral lexeme cs).Joins cs := by
  have whole : cs.takeWhile Char.isDigit ++ cs.dropWhile Char.isDigit = cs :=
    List.takeWhile_append_dropWhile
  unfold numeral
  dsimp only
  split
  · rename_i digit more found
    rw [found] at whole
    split
    · have fraction := (along_joins Char.isDigit (fun text =>
        numeralMeaning (lexeme ++ cs.takeWhile Char.isDigit ++ '.' :: text)) (digit :: more)).after
        (cs.takeWhile Char.isDigit ++ ['.'])
      rw [List.append_assoc, List.singleton_append, whole] at fraction
      exact fraction
    · exact whole
  · exact whole

theorem string_joins (lexeme cs : List Char) : (string lexeme cs).Joins cs := by
  have whole : cs.takeWhile (· ≠ '\x22') ++ cs.dropWhile (· ≠ '\x22') = cs :=
    List.takeWhile_append_dropWhile
  unfold string
  dsimp only
  split
  · rename_i found
    rw [found] at whole
    exact whole
  · rename_i quote rest found
    rw [found] at whole
    simpa [Joins] using whole

theorem slash_joins (cs : List Char) : (slash cs).Joins cs := by
  unfold slash
  split
  · exact (along_joins _ _ _).after ['/']
  · rfl

theorem pair_joins (alone paired : Kind) (cs : List Char) : (pair alone paired cs).Joins cs := by
  unfold pair
  split <;> rfl

theorem follow_joins (lexeme : List Char) (c : Char) (cs : List Char) :
    (follow lexeme c cs).Joins cs := by
  unfold follow
  split
  · rfl
  split
  · exact pair_joins _ _ _
  split
  · exact slash_joins cs
  split
  · rfl
  split
  · exact string_joins _ _
  split
  · exact numeral_joins _ _
  split
  · exact along_joins _ _ _
  · rfl

theorem first_joins (lexeme : List Char) (c : Char) (cs : List Char) :
    (first lexeme c cs).Joins (c :: cs) := (follow_joins _ c cs).after [c]

/-- A cut takes at least the character it starts with. -/
theorem length_first_rest_le (lexeme : List Char) (c : Char) (cs : List Char) :
    (first lexeme c cs).rest.length ≤ cs.length := by
  have joined := congrArg List.length (follow_joins (lexeme ++ [c]) c cs)
  simp only [List.length_append] at joined
  change (follow (lexeme ++ [c]) c cs).rest.length ≤ cs.length
  omega

end Cut

/-- A text as its consecutive segments. -/
def segments : List Char → List Segment
  | [] => []
  | c :: cs =>
    let cut := Cut.first [] c cs
    cut.toSegment :: segments cut.rest
termination_by cs => cs.length
decreasing_by exact Nat.lt_succ_of_le (Cut.length_first_rest_le [] c cs)

/-- The segments of a text, put together, are the text. -/
theorem flatten_segments (cs : List Char) : ((segments cs).map Segment.text).flatten = cs := by
  fun_induction segments cs with
  | case1 => rfl
  | case2 c cs cut ih =>
    simp only [List.map_cons, List.flatten_cons, ih]
    exact Cut.first_joins [] c cs

/-- The token that a segment stands for, apart from its line. -/
def Segment.token? (s : Segment) : Option Token :=
  match s.meaning with
  | .token kind datum => some ⟨kind, String.ofList s.text, datum, 0⟩
  | _ => none

/-- What is wrong with a segment. -/
def Segment.problem? (s : Segment) : Option LexicalProblem :=
  match s.meaning with
  | .problem what => some what
  | _ => none

/-- What the segments of a text give, in order, each with the line on which it ends. The first of
them starts on the given line. -/
def onLines {α : Type} (give : Segment → Option (Int → α)) (line : Int) (found : List Segment) :
    List α :=
  found.zipIdx.filterMap fun (s, i) =>
    (give s).map (· (line + newlines ((found.take (i + 1)).flatMap Segment.text)))

theorem newlines_append (cs ds : List Char) : newlines (cs ++ ds) = newlines cs + newlines ds :=
  List.count_append

theorem line_cons (line : Int) (s : Segment) (found : List Segment) :
    line + newlines s.text + newlines (found.flatMap Segment.text) =
      line + newlines ((s :: found).flatMap Segment.text) := by
  rw [List.flatMap_cons, newlines_append]
  push_cast
  omega

theorem onLines_cons {α : Type} (give : Segment → Option (Int → α)) (line : Int) (s : Segment)
    (found : List Segment) :
    onLines give line (s :: found) =
      ((give s).map (· (line + newlines s.text))).toList ++
        onLines give (line + newlines s.text) found := by
  have hline (i : Nat) : line + newlines (((s :: found).take (i + 1 + 1)).flatMap Segment.text) =
      line + newlines s.text + newlines ((found.take (i + 1)).flatMap Segment.text) := by
    rw [List.take_succ_cons, line_cons]
  simp only [onLines, List.zipIdx_cons, Nat.zero_add, List.zipIdx_succ, List.filterMap_cons,
    List.filterMap_map, Function.comp_def, hline]
  cases give s with
  | none => rfl
  | some f => simp

/-- The tokens of consecutive segments, the first of which starts on the given line, and the mark of
the end. -/
def tokensOf (line : Int) (found : List Segment) : List Token :=
  onLines (fun s => s.token?.map fun t line => { t with line }) line found ++
    [.ending (line + newlines (found.flatMap Segment.text))]

/-- The problems among consecutive segments. -/
def errorsOf (line : Int) (found : List Segment) : List LexicalError :=
  onLines (fun s => s.problem?.map fun what line => ⟨line, what⟩) line found

theorem tokensOf_nil (line : Int) : tokensOf line [] = [.ending line] := by
  simp [tokensOf, onLines, newlines]

theorem errorsOf_nil (line : Int) : errorsOf line [] = [] := rfl

/-- The token of a segment on the line on which it ends, in front of those of the others. -/
theorem tokensOf_cons (line : Int) (s : Segment) (found : List Segment) :
    tokensOf line (s :: found) =
      (s.token?.map fun t => { t with line := line + newlines s.text }).toList ++
        tokensOf (line + newlines s.text) found := by
  rw [tokensOf, onLines_cons, ← line_cons, Option.map_map, List.append_assoc, tokensOf]
  rfl

theorem errorsOf_cons (line : Int) (s : Segment) (found : List Segment) :
    errorsOf line (s :: found) =
      (s.problem?.map fun what => ⟨line + newlines s.text, what⟩).toList ++
        errorsOf (line + newlines s.text) found := by
  rw [errorsOf, onLines_cons, Option.map_map, errorsOf]
  rfl

end ExprScript
