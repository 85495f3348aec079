import ExprScript.Proofs.Segments

namespace ExprScript.Lexer

variable {α β : Type}

theorem bind_ok {x : Reading α} {f : α → Reading β} {l m : Lexer} {a : α} (h : x l = .ok a m) :
    (x >>= f) l = f a m := by
  change EStateM.bind x f l = _
  rw [EStateM.bind, h]

theorem get_bind (f : Lexer → Reading β) (l : Lexer) : (get >>= f) l = f l l := rfl

/-- Behind a text, on the line to which it comes. -/
def past (l : Lexer) (text rest : List Char) : Lexer :=
  { l with taken := text.reverse ++ l.taken, rest, line := l.line + newlines text }

@[simp] theorem past_rest (l : Lexer) (text rest : List Char) :
    (l.past text rest).rest = rest := rfl

@[simp] theorem past_lexeme (l : Lexer) (text rest : List Char) :
    (l.past text rest).lexeme = l.lexeme ++ text := by
  simp [past, lexeme]

theorem past_past (l : Lexer) (text rest more others : List Char) :
    (l.past text rest).past more others = l.past (text ++ more) others := by
  simp only [past, List.reverse_append, List.append_assoc, newlines_append]
  congr 1
  push_cast
  omega

theorem past_nil {l : Lexer} {rest : List Char} (h : l.rest = rest) : l.past [] rest = l := by
  subst h
  simp [past, newlines]

/-- A text without a newline in it does not change the line. -/
theorem past_eq {text : List Char} (h : '\n' ∉ text) (l : Lexer) (rest : List Char) :
    l.past text rest = { l with taken := text.reverse ++ l.taken, rest } := by
  have hnone : newlines text = 0 := List.count_eq_zero.mpr h
  simp [past, hnone]

theorem advance_eq {l : Lexer} {c : Char} {cs : List Char} (h : l.rest = c :: cs) (hc : c ≠ '\n') :
    advance l = .ok c (l.past [c] cs) := by
  rw [past_eq (by simpa using hc.symm), advance, h]
  rfl

/-- Inside a string a newline is counted before it is read. -/
theorem advance_countLine {l : Lexer} {c : Char} {cs : List Char} (h : l.rest = c :: cs) :
    advance l.countLine = .ok c (l.past [c] cs) := by
  have hpeek : l.peek = c := by simp [peek, h]
  rw [countLine, hpeek]
  split
  · rename_i hc
    subst hc
    rw [advance, show l.newline.rest = l.rest from rfl, h]
    rfl
  · rename_i hc
    exact advance_eq h hc

/-- The condition looks at nothing but the next character, and does not hold at the end. -/
def Watches (goesOn : Lexer → Bool) (p : Char → Bool) : Prop :=
  ∀ l : Lexer, goesOn l = l.rest.head?.any p

/-- The null character that stands for the end has none of the properties of words and numerals. -/
theorem watches_peek {p : Char → Bool} (hp : p '\x00' = false) : Watches (fun l => p l.peek) p := by
  intro l
  cases hrest : l.rest with
  | nil => simp [peek, hrest, hp]
  | cons c cs => simp [peek, hrest]

/-- Where the null character could stop a loop as well as the end, the loop asks for the end. -/
theorem watches_inside (c : Char) :
    Watches (fun l => l.peek ≠ c ∧ l.isAtEnd = false) (· ≠ c) := by
  intro l
  cases hrest : l.rest with
  | nil => simp [isAtEnd, hrest]
  | cons d ds => simp [peek, isAtEnd, hrest]

/-- A loop stops behind the characters that its condition looks for. It meets no fault. -/
theorem readWhile_eq {goesOn : Lexer → Bool} {p : Char → Bool} (h : Watches goesOn p)
    (hp : p '\n' = false) (l : Lexer) :
    readWhile goesOn l = .ok () (l.past (l.rest.takeWhile p) (l.rest.dropWhile p)) := by
  induction hrest : l.rest generalizing l with
  | nil =>
    rw [readWhile, h l, hrest, List.takeWhile_nil, List.dropWhile_nil, past_nil hrest]
    rfl
  | cons c cs ih =>
    rw [readWhile, h l, hrest]
    cases hc : p c with
    | false => simp [hc, past_nil hrest]
    | true =>
      have hne : c ≠ '\n' := by
        rintro rfl
        rw [hp] at hc
        cases hc
      simp only [List.head?_cons, Option.any_some, hc, if_true]
      split
      · rename_i d m hadvance
        rw [advance_eq hrest hne] at hadvance
        cases hadvance
        rw [ih _ rfl, past_past, List.takeWhile_cons_of_pos hc, List.dropWhile_cons_of_pos hc]
        rfl
      · rename_i why m hadvance
        rw [advance_eq hrest hne] at hadvance
        cases hadvance

/-- The loop of a string stops in front of the next quote, and counts the lines up to there. -/
theorem readString_eq (l : Lexer) :
    readString l =
      .ok () (l.past (l.rest.takeWhile (· ≠ '\x22')) (l.rest.dropWhile (· ≠ '\x22'))) := by
  induction hrest : l.rest generalizing l with
  | nil =>
    rw [readString, if_neg (by simp [isAtEnd, hrest]), List.takeWhile_nil, List.dropWhile_nil,
      past_nil hrest]
  | cons c cs ih =>
    rw [readString]
    by_cases hc : c = '\x22'
    · rw [if_neg (by simp [peek, hrest, hc])]
      simp [hc, past_nil (hc ▸ hrest)]
    · have hread : advance l.countLine = .ok c (l.past [c] cs) := advance_countLine hrest
      rw [if_pos ⟨by simpa [peek, hrest] using hc, by simp [isAtEnd, hrest]⟩]
      split
      · rename_i d m hadvance
        rw [hread] at hadvance
        cases hadvance
        rw [ih _ rfl, past_past]
        simp [hc]
      · rename_i why m hadvance
        rw [hread] at hadvance
        cases hadvance

/-- Records what a cut stands for, once its text is passed. -/
def take (l : Lexer) (cut : Cut) : EStateM.Result LexerFault Lexer Unit :=
  let m := l.past cut.text cut.rest
  match cut.meaning with
  | .layout => .ok () m
  | .token kind datum => addToken kind datum m
  | .problem what => complain what m
  | .illegible => .error (.illegible (String.ofList m.lexeme)) m

theorem past_take (l : Lexer) (front rest : List Char) (cut : Cut) :
    (l.past front rest).take cut = l.take (Cut.after front cut) := by
  simp only [take, past_past, Cut.after]

theorem take_nil (l : Lexer) (meaning : Meaning) :
    l.take ⟨⟨[], meaning⟩, l.rest⟩ = match meaning with
      | .layout => .ok () l
      | .token kind datum => addToken kind datum l
      | .problem what => complain what l
      | .illegible => .error (.illegible (String.ofList l.lexeme)) l := by
  rw [take, past_nil rfl]

theorem word_eq (l : Lexer) : word l = l.take (Cut.word l.lexeme l.rest) := by
  rw [word, bind_ok (readWhile_eq (watches_peek rfl) rfl l), get_bind, past_lexeme]
  rfl

/-- A point is read with the digits behind it. -/
theorem fraction_of_isDigit {l : Lexer} {digit : Char} {more : List Char}
    (h : l.rest = '.' :: digit :: more) (hdigit : digit.isDigit = true) :
    fraction l =
      .ok () (l.past ('.' :: (digit :: more).takeWhile Char.isDigit)
        ((digit :: more).dropWhile Char.isDigit)) := by
  have hpoint : l.peek = '.' := by simp [peek, h]
  have hsecond : l.peekSecond.isDigit = true := by simp [peekSecond, h, hdigit]
  rw [fraction, get_bind, if_pos ⟨hpoint, hsecond⟩, bind_ok (advance_eq h (by decide)),
    readWhile_eq (watches_peek rfl) rfl, past_past]
  rfl

/-- Anything else is left to be read. -/
theorem fraction_of_not {l : Lexer}
    (h : ∀ digit more, l.rest = '.' :: digit :: more → digit.isDigit = false) :
    fraction l = .ok () l := by
  have hstops : ¬ (l.peek = '.' ∧ l.peekSecond.isDigit = true) := by
    rintro ⟨hpoint, hsecond⟩
    cases hrest : l.rest with
    | nil => simp [peek, hrest] at hpoint
    | cons c cs =>
      cases cs with
      | nil => simp [peekSecond, hrest] at hsecond
      | cons digit more =>
        obtain rfl : c = '.' := by simpa [peek, hrest] using hpoint
        have hdigit : digit.isDigit = true := by simpa [peekSecond, hrest] using hsecond
        rw [h digit more hrest] at hdigit
        cases hdigit
  rw [fraction, get_bind, if_neg hstops]
  rfl

theorem addNumber_eq (l : Lexer) (text rest : List Char) :
    addNumber (l.past text rest) =
      l.take ⟨⟨text, Cut.numeralMeaning (l.lexeme ++ text)⟩, rest⟩ := by
  rw [addNumber, get_bind, past_lexeme, take, Cut.numeralMeaning]
  cases Number.Numeral.read? (l.lexeme ++ text) with
  | none =>
    rw [← past_lexeme l text rest]
    rfl
  | some x => rfl

theorem numeral_eq (l : Lexer) : numeral l = l.take (Cut.numeral l.lexeme l.rest) := by
  rw [numeral, bind_ok (readWhile_eq (watches_peek rfl) rfl l), Cut.numeral]
  split
  · rename_i digit more hrest
    split
    · rename_i hdigit
      rw [bind_ok (fraction_of_isDigit hrest hdigit), past_past, addNumber_eq]
      simp [Cut.after, Cut.along]
    · rename_i hdigit
      rw [bind_ok (fraction_of_not _), addNumber_eq, hrest]
      simp_all
  · rename_i hother
    rw [bind_ok (fraction_of_not _), addNumber_eq]
    intro digit more hrest
    exact absurd hrest (hother digit more)

theorem string_eq (l : Lexer) : string l = l.take (Cut.string l.lexeme l.rest) := by
  rw [string, bind_ok (readString_eq l), get_bind, Cut.string]
  split
  · rename_i hend
    have hrest : l.rest.dropWhile (· ≠ '\x22') = [] := List.isEmpty_iff.mp hend
    rw [hrest]
    rfl
  · rename_i hend
    obtain ⟨quote, rest, hmore⟩ := List.exists_cons_of_ne_nil fun h => hend (List.isEmpty_iff.mpr h)
    have hrest : l.rest.dropWhile (· ≠ '\x22') = quote :: rest := hmore
    have hquote : quote ≠ '\n' := by
      have hhead := List.head?_dropWhile_not (· ≠ '\x22') l.rest
      rw [hrest] at hhead
      rintro rfl
      simp at hhead
    rw [bind_ok (advance_eq hmore hquote), get_bind, past_past, past_lexeme, hrest,
      ← List.append_assoc]
    rfl

theorem accept_of_eq {l : Lexer} {c : Char} {cs : List Char} (h : l.rest = c :: cs)
    (hc : c ≠ '\n') : accept c l = .ok true (l.past [c] cs) := by
  rw [past_eq (by simpa using hc.symm), accept, h]
  exact if_pos rfl

theorem accept_of_ne {l : Lexer} {c : Char} (h : ∀ cs, l.rest ≠ c :: cs) :
    accept c l = .ok false l := by
  rw [accept]
  split
  · rfl
  · rename_i d ds hrest
    rw [if_neg]
    rintro rfl
    exact h ds hrest

theorem slash_eq (l : Lexer) : slash l = l.take (Cut.slash l.rest) := by
  rw [slash, Cut.slash.eq_def]
  split
  · rename_i more hrest
    rw [bind_ok (accept_of_eq hrest (by decide)), if_pos rfl,
      readWhile_eq (watches_inside '\n') rfl, past_past]
    rfl
  · rename_i hother
    rw [bind_ok (accept_of_ne hother), if_neg Bool.false_ne_true, take_nil]

theorem pair_eq (alone paired : Kind) (l : Lexer) :
    pair alone paired l = l.take (Cut.pair alone paired l.rest) := by
  rw [pair, Cut.pair.eq_def]
  split
  · rename_i rest hrest
    rw [bind_ok (accept_of_eq hrest (by decide))]
    rfl
  · rename_i hother
    rw [bind_ok (accept_of_ne hother), take_nil]
    rfl

theorem isLayout_iff {c : Char} (hc : c ≠ '\n') :
    isLayout c = true ↔ c = ' ' ∨ c = '\r' ∨ c = '\t' := by
  simp [isLayout, hc, or_assoc]

/-- What is read behind a character that is no newline is the cut that follows it. -/
theorem follow_eq {c : Char} (hc : c ≠ '\n') (l : Lexer) :
    follow c l = l.take (Cut.follow l.lexeme c l.rest) := by
  unfold follow Cut.follow
  cases Kind.singles.lookup c with
  | some kind => exact (take_nil l (.token kind .nil)).symm
  | none =>
    cases Kind.pairs.lookup c with
    | some kinds => exact pair_eq _ _ l
    | none =>
      simp only
      by_cases hslash : c = '/'
      · rw [if_pos hslash, if_pos hslash, slash_eq]
      by_cases hlayout : isLayout c = true
      · rw [if_neg hslash, if_neg hslash, if_pos ((isLayout_iff hc).mp hlayout), if_pos hlayout,
          take_nil]
        rfl
      rw [if_neg hslash, if_neg hslash, if_neg (mt (isLayout_iff hc).mpr hlayout), if_neg hlayout,
        if_neg hc]
      split
      · exact string_eq l
      split
      · exact numeral_eq l
      split
      · exact word_eq l
      · exact (take_nil l (.problem .unexpectedCharacter)).symm

/-- A step reads the segment at the front of the text. -/
theorem step_eq {l : Lexer} {c : Char} {cs : List Char} (h : l.rest = c :: cs) :
    step l = l.take (Cut.first l.lexeme c cs) := by
  by_cases hc : c = '\n'
  · subst hc
    have hread : advance l = .ok '\n' { l with taken := '\n' :: l.taken, rest := cs } := by
      rw [advance, h]
    rw [step, bind_ok hread]
    rfl
  · rw [step, bind_ok (advance_eq h hc), follow_eq hc, past_lexeme, past_rest, past_take]
    rfl

end ExprScript.Lexer
