import ExprScript.Proofs.Lexemes

namespace ExprScript

/-- The operators and the marks between other tokens, with their kinds. -/
def marks : List (String × Kind) :=
  [("!=", .bangEqual), ("==", .equalEqual), ("<=", .lessEqual), (">=", .greaterEqual), ("!", .bang),
    ("=", .equal), ("<", .less), (">", .greater), ("/", .slash), ("(", .leftParen),
    (")", .rightParen), ("\x7b", .leftBrace), ("\x7d", .rightBrace), (",", .comma), (".", .dot),
    ("-", .minus), ("+", .plus), (";", .semicolon), ("*", .star)]

/-- The texts that can stand by themselves in a script, with what each of them stands for. -/
inductive Lexeme : List Char → Meaning → Prop where
  | blank {c : Char} (hc : c ∈ [' ', '\r', '\t', '\n']) : Lexeme [c] .layout
  | comment {body : List Char} (hbody : '\n' ∉ body) : Lexeme ('/' :: '/' :: body) .layout
  | keyword {word : String} {kind : Kind} (h : (word, kind) ∈ Kind.keywords) :
    Lexeme word.toList (.token kind .nil)
  | name {c : Char} {cs : List Char} (hc : c.isAlpha = true ∨ c = '_')
    (hcs : ∀ d ∈ cs, d.isAlphanum = true ∨ d = '_')
    (hword : ∀ entry ∈ Kind.keywords, entry.1.toList ≠ c :: cs) :
    Lexeme (c :: cs) (.token .identifier .nil)
  | numeral {whole fraction : List Char} (h : Number.AreDigits whole fraction) :
    Lexeme (Number.pointed whole fraction)
      (.token .number (.value (.number ((Number.spelledDecimal whole fraction).toFloat false))))
  | string {body : List Char} (hbody : '\x22' ∉ body) :
    Lexeme ('\x22' :: (body ++ ['\x22'])) (.token .string (.value (.text (.ofList body))))
  | mark {text : String} {kind : Kind} (h : (text, kind) ∈ marks) :
    Lexeme text.toList (.token kind .nil)

/-- The pieces that stand for nothing: a string without its closing quote, which takes all the rest
of the text, and any other character that no lexeme starts with. -/
inductive Stray : List Char → Segment → Prop where
  | openString {body : List Char} :
    Stray ('\x22' :: body) ⟨'\x22' :: body, .problem .unterminatedString⟩
  | character {c : Char} {cs : List Char} (hc : c ≠ '\x22') :
    Stray (c :: cs) ⟨[c], .problem .unexpectedCharacter⟩

/-- The segment is the longest lexeme at the front of the text. Only where no lexeme stands it is a
stray piece. -/
inductive Leads (cs : List Char) (s : Segment) : Prop where
  | lexeme (h : Lexeme s.text s.meaning) (hfront : s.text <+: cs)
    (hlongest : ∀ text meaning, Lexeme text meaning → text <+: cs → text.length ≤ s.text.length)
  | stray (h : Stray cs s) (hnone : ∀ text meaning, Lexeme text meaning → ¬ text <+: cs)

/-- The text falls into the segments, each of which leads what is left of the text. -/
inductive FallsInto : List Char → List Segment → Prop where
  | nil : FallsInto [] []
  | cons {s : Segment} {rest : List Char} {found : List Segment} (h : Leads (s.text ++ rest) s)
    (others : FallsInto rest found) : FallsInto (s.text ++ rest) (s :: found)

/-- A cut reaches over a lexeme at the front of its text. Where it does not go on behind it, it
stands for what the lexeme stands for. -/
structure Cut.Covers (cut : Cut) (text : List Char) (meaning : Meaning) : Prop where
  front : text <+: cut.text
  sound : cut.toSegment.IsSound
  exact : cut.text = text → cut.meaning = meaning

theorem follow_layout {c : Char} (hc : isLayout c = true) (lexeme cs : List Char) :
    Cut.follow lexeme c cs = ⟨⟨[], .layout⟩, cs⟩ := by
  simp only [isLayout, Bool.or_eq_true, decide_eq_true_eq] at hc
  rcases hc with ((rfl | rfl) | rfl) | rfl <;> rfl

/-- Characters with a property are among those that are cut off along it. -/
theorem along_covers {keep : Char → Bool} {meaning : List Char → Meaning} {cs : List Char}
    (h : ∀ d ∈ cs, keep d = true) (rest : List Char) :
    cs <+: (Cut.along keep meaning (cs ++ rest)).text := by
  rw [Cut.along, List.takeWhile_append_of_pos h]
  exact List.prefix_append _ _

theorem numeral_meaning (lexeme cs : List Char) :
    (Cut.numeral lexeme cs).meaning =
      Cut.numeralMeaning (lexeme ++ (Cut.numeral lexeme cs).text) := by
  unfold Cut.numeral
  dsimp only
  split
  · split
    · simp [Cut.after, Cut.along]
    · rfl
  · rfl

/-- What is cut off behind a digit makes a numeral of it. -/
theorem numeral_pointed {c : Char} (hc : c.isDigit = true) (cs : List Char) :
    ∃ whole fraction, Number.AreDigits whole fraction ∧
      c :: (Cut.numeral [c] cs).text = Number.pointed whole fraction := by
  have htake : ∀ d ∈ c :: cs.takeWhile Char.isDigit, d.isDigit = true := by
    intro d hd
    rcases List.mem_cons.mp hd with rfl | hd
    · exact hc
    · exact List.mem_takeWhile_imp hd
  have hwhole : Number.AreDigits (c :: cs.takeWhile Char.isDigit) [] := ⟨by simp, htake, by simp⟩
  unfold Cut.numeral
  dsimp only
  split
  · rename_i digit more _
    split
    · rename_i hdigit
      refine ⟨c :: cs.takeWhile Char.isDigit, digit :: more.takeWhile Char.isDigit,
        ⟨by simp, htake, ?_⟩, ?_⟩
      · intro d hd
        rcases List.mem_cons.mp hd with rfl | hd
        · exact hdigit
        · exact List.mem_takeWhile_imp hd
      · simp [Cut.after, Cut.along, hdigit, Number.pointed]
    · exact ⟨_, [], hwhole, rfl⟩
  · exact ⟨_, [], hwhole, rfl⟩

theorem numeralMeaning_pointed {whole fraction : List Char} (h : Number.AreDigits whole fraction) :
    Cut.numeralMeaning (Number.pointed whole fraction) =
      .token .number (.value (.number ((Number.spelledDecimal whole fraction).toFloat false))) := by
  rw [Cut.numeralMeaning, Number.Numeral.read?_pointed h]

theorem follow_single {c : Char} {kind : Kind} (hc : (c, kind) ∈ Kind.singles)
    (lexeme cs : List Char) : Cut.follow lexeme c cs = ⟨⟨[], .token kind .nil⟩, cs⟩ := by
  have hall : ∀ entry ∈ Kind.singles, Kind.singles.lookup entry.1 = some entry.2 := by decide
  simp [Cut.follow, hall _ hc]

theorem follow_pair {c : Char} {alone paired : Kind} (hc : (c, alone, paired) ∈ Kind.pairs)
    (lexeme cs : List Char) : Cut.follow lexeme c cs = Cut.pair alone paired cs := by
  have hall : ∀ entry ∈ Kind.pairs,
      Kind.singles.lookup entry.1 = none ∧ Kind.pairs.lookup entry.1 = some entry.2 := by decide
  obtain ⟨hs, hp⟩ := hall _ hc
  simp [Cut.follow, hs, hp]

/-- Each mark is a single character, one that an equals sign may follow, that one with its equals
sign, or the slash. -/
theorem mark_cases {text : String} {kind : Kind} (h : (text, kind) ∈ marks) :
    (∃ e ∈ Kind.singles, e.2 = kind ∧ text.toList = [e.1]) ∨
      (∃ e ∈ Kind.pairs, e.2.1 = kind ∧ text.toList = [e.1]) ∨
      (∃ e ∈ Kind.pairs, e.2.2 = kind ∧ text.toList = [e.1, '=']) ∨
      text.toList = ['/'] ∧ kind = .slash := by
  have hall : ∀ m ∈ marks, (∃ e ∈ Kind.singles, e.2 = m.2 ∧ m.1.toList = [e.1]) ∨
      (∃ e ∈ Kind.pairs, e.2.1 = m.2 ∧ m.1.toList = [e.1]) ∨
      (∃ e ∈ Kind.pairs, e.2.2 = m.2 ∧ m.1.toList = [e.1, '=']) ∨
      m.1.toList = ['/'] ∧ m.2 = .slash := by decide +kernel
  exact hall _ h

/-- A reserved word is a word. -/
theorem keyword_cases {word : String} {kind : Kind} (h : (word, kind) ∈ Kind.keywords) :
    ∃ c cs, word.toList = c :: cs ∧ isWordStart c = true ∧ (∀ d ∈ cs, isWordCharacter d = true) ∧
      Kind.ofWord word = kind := by
  have hall : ∀ e ∈ Kind.keywords, e.1.toList ≠ [] ∧ e.1.toList.all isWordStart = true ∧
      Kind.ofWord e.1 = e.2 := by decide +kernel
  obtain ⟨hne, hletters, hkind⟩ := hall _ h
  obtain ⟨c, cs, hword⟩ := List.exists_cons_of_ne_nil hne
  rw [hword, List.all_eq_true] at hletters
  refine ⟨c, cs, hword, hletters c (by simp), fun d hd => ?_, hkind⟩
  simp [isWordCharacter, hletters d (by simp [hd])]

/-- A name is a word that is not reserved. -/
theorem name_cases {c : Char} {cs : List Char} (hc : c.isAlpha = true ∨ c = '_')
    (hcs : ∀ d ∈ cs, d.isAlphanum = true ∨ d = '_')
    (hword : ∀ entry ∈ Kind.keywords, entry.1.toList ≠ c :: cs) :
    isWordStart c = true ∧ (∀ d ∈ cs, isWordCharacter d = true) ∧
      Kind.keywords.lookup (String.ofList (c :: cs)) = none := by
  refine ⟨by simpa [isWordStart] using hc, fun d hd => ?_, ?_⟩
  · have hd := hcs d hd
    simp only [Char.isAlphanum, Bool.or_eq_true] at hd
    simp only [isWordCharacter, isWordStart, Bool.or_eq_true, decide_eq_true_eq]
    tauto
  · rw [List.lookup_eq_none_iff]
    intro entry hentry
    have hne := hword entry hentry
    have hdiffers : String.ofList (c :: cs) ≠ entry.1 := by
      rintro heq
      exact hne (by rw [← heq, String.toList_ofList])
    simpa using hdiffers

theorem Cut.Covers.of_follow {c : Char} {cs rest : List Char} {m : Meaning} {cut : Cut}
    (h : Cut.follow [c] c (cs ++ rest) = cut) (front : cs <+: cut.text)
    (sound : cut.toSegment.IsSound) (exact : cut.text = cs → cut.meaning = m) :
    (Cut.first [] c (cs ++ rest)).Covers (c :: cs) m := by
  have hfirst : Cut.first [] c (cs ++ rest) = Cut.after [c] cut := congrArg (Cut.after [c]) h
  rw [hfirst]
  refine ⟨List.cons_prefix_cons.mpr ⟨rfl, front⟩, sound, fun heq => exact ?_⟩
  exact (List.cons.inj heq).2

theorem word_covers {c : Char} {cs : List Char} {kind : Kind} (hc : isWordStart c = true)
    (hcs : ∀ d ∈ cs, isWordCharacter d = true) (hkind : Kind.ofWord (.ofList (c :: cs)) = kind)
    (rest : List Char) : (Cut.first [] c (cs ++ rest)).Covers (c :: cs) (.token kind .nil) := by
  refine .of_follow (follow_wordStart hc _ _) (along_covers hcs rest) trivial fun heq => ?_
  rw [← hkind]
  exact congrArg (fun text => Meaning.token (Kind.ofWord (.ofList (c :: text))) .nil) heq

theorem numeral_covers {c : Char} {cs fraction : List Char}
    (h : Number.AreDigits (c :: cs) fraction) (rest : List Char) :
    ∃ ds, Number.pointed (c :: cs) fraction = c :: ds ∧
      ds <+: (Cut.numeral [c] (ds ++ rest)).text := by
  obtain ⟨hc, hcs⟩ := List.forall_mem_cons.mp h.whole
  cases fraction with
  | nil =>
    refine ⟨cs, rfl, ?_⟩
    have hwhole : cs <+: (cs ++ rest).takeWhile Char.isDigit := by
      rw [List.takeWhile_append_of_pos hcs]
      exact List.prefix_append _ _
    unfold Cut.numeral
    dsimp only
    split
    · split
      · simp only [Cut.after, List.append_assoc]
        exact hwhole.trans (List.prefix_append _ _)
      · exact hwhole
    · exact hwhole
  | cons d ds =>
    refine ⟨cs ++ '.' :: d :: ds, rfl, ?_⟩
    have hfraction := @along_covers _ (fun text => Cut.numeralMeaning ([c] ++ cs ++ '.' :: text)) _
      h.fraction rest
    have htake : (cs ++ '.' :: (d :: ds ++ rest)).takeWhile Char.isDigit = cs :=
      takeWhile_front hcs (by simp)
    have hdrop : (cs ++ '.' :: (d :: ds ++ rest)).dropWhile Char.isDigit =
        '.' :: (d :: ds ++ rest) := dropWhile_front hcs (by simp)
    rw [List.append_assoc, List.cons_append, Cut.numeral, htake, hdrop, List.cons_append]
    simp only [h.fraction d (by simp), if_true, Cut.after]
    rw [← List.cons_append, List.append_assoc, List.singleton_append]
    exact (List.prefix_append_right_inj cs).mpr (List.cons_prefix_cons.mpr ⟨rfl, hfraction⟩)

/-- A numeral is covered: behind it only digits go on, or a point with digits behind it. -/
theorem numeral_covered {whole fraction : List Char} (h : Number.AreDigits whole fraction) :
    ∃ c cs, Number.pointed whole fraction = c :: cs ∧ ∀ rest,
      (Cut.first [] c (cs ++ rest)).Covers (c :: cs) (.token .number
        (.value (.number ((Number.spelledDecimal whole fraction).toFloat false)))) := by
  obtain ⟨c, cs, rfl⟩ := List.exists_cons_of_ne_nil h.nonempty
  have hc : c.isDigit = true := h.whole c (by simp)
  obtain ⟨ds, hpointed, -⟩ := numeral_covers h []
  refine ⟨c, ds, hpointed, fun rest => .of_follow (follow_digit hc _) ?_ ?_ fun heq => ?_⟩
  · obtain ⟨es, hes, hfront⟩ := numeral_covers h rest
    obtain ⟨-, rfl⟩ := List.cons.inj (hpointed.symm.trans hes)
    exact hfront
  · obtain ⟨whole, fraction, hdigits, htext⟩ := numeral_pointed hc (ds ++ rest)
    have hmeaning := numeral_meaning [c] (ds ++ rest)
    rw [List.singleton_append, htext, numeralMeaning_pointed hdigits] at hmeaning
    simp [Segment.IsSound, hmeaning]
  · rw [numeral_meaning, heq, List.singleton_append, ← hpointed, numeralMeaning_pointed h]

theorem mark_covered {text : String} {kind : Kind} (h : (text, kind) ∈ marks) :
    ∃ c cs, text.toList = c :: cs ∧
      ∀ rest, (Cut.first [] c (cs ++ rest)).Covers (c :: cs) (.token kind .nil) := by
  rcases mark_cases h with ⟨⟨c, k⟩, he, rfl, htext⟩ | ⟨⟨c, k, paired⟩, he, rfl, htext⟩ |
    ⟨⟨c, alone, k⟩, he, rfl, htext⟩ | ⟨htext, rfl⟩
  · refine ⟨c, [], htext, fun rest => .of_follow (follow_single he _ _) ?_ trivial fun _ => rfl⟩
    exact List.nil_prefix
  · refine ⟨c, [], htext, fun rest => .of_follow (follow_pair he _ _) List.nil_prefix ?_ ?_⟩
    · unfold Cut.pair
      split <;> trivial
    · unfold Cut.pair
      split
      · intro heq
        cases heq
      · exact fun _ => rfl
  · refine ⟨c, ['='], htext, fun rest => .of_follow (follow_pair he _ _) ?_ trivial fun _ => rfl⟩
    exact List.prefix_refl _
  · refine ⟨'/', [], htext, fun rest => .of_follow rfl List.nil_prefix ?_ ?_⟩
    · change (Cut.slash rest).toSegment.IsSound
      unfold Cut.slash
      split <;> trivial
    · change (Cut.slash rest).text = [] → (Cut.slash rest).meaning = _
      unfold Cut.slash
      split
      · intro heq
        cases heq
      · exact fun _ => rfl

/-- A lexeme at the front of a text is covered by the cut there. -/
theorem Lexeme.covered {text : List Char} {m : Meaning} (h : Lexeme text m) :
    ∃ c cs, text = c :: cs ∧ ∀ rest, (Cut.first [] c (cs ++ rest)).Covers (c :: cs) m := by
  cases h with
  | @blank c hc =>
    refine ⟨c, [], rfl, fun rest => .of_follow (follow_layout ?_ _ _) ?_ trivial fun _ => rfl⟩
    · simpa [isLayout, or_assoc] using hc
    · exact List.nil_prefix
  | @comment body hbody =>
    refine ⟨'/', '/' :: body, rfl, fun rest => .of_follow rfl ?_ trivial fun _ => rfl⟩
    have hcovers := @along_covers _ (fun _ => .layout) _ (ne_of_not_mem hbody) rest
    exact List.cons_prefix_cons.mpr ⟨rfl, hcovers⟩
  | @keyword word kind h =>
    obtain ⟨c, cs, hword, hc, hcs, hkind⟩ := keyword_cases h
    refine ⟨c, cs, hword, word_covers hc hcs ?_⟩
    rwa [← hword, String.ofList_toList]
  | @name c cs hc hcs hword =>
    obtain ⟨hstart, hcharacters, hnone⟩ := name_cases hc hcs hword
    refine ⟨c, cs, rfl, word_covers hstart hcharacters ?_⟩
    rw [Kind.ofWord, hnone]
    rfl
  | numeral h => exact numeral_covered h
  | @string body hbody =>
    exact ⟨'\x22', body ++ ['\x22'], rfl, fun rest =>
      .of_follow (string_closed hbody rest) (List.prefix_refl _) trivial fun _ => rfl⟩
  | mark h => exact mark_covered h

end ExprScript
