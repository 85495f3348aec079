import ExprScript.Proofs.Digits
import ExprScript.Proofs.Placement
import ExprScript.Proofs.Segments

namespace ExprScript

theorem Segment.lexeme_of_token? {s : Segment} {t : Token} (h : s.token? = some t) :
    t.lexeme = String.ofList s.text := by
  unfold token? at h
  split at h
  · obtain rfl := Option.some.inj h
    rfl
  · cases h

theorem Segment.unplaced_of_token? {s : Segment} {t : Token} (h : s.token? = some t) :
    t.unplaced = t := by
  unfold token? at h
  split at h
  · obtain rfl := Option.some.inj h
    rfl
  · cases h

/-- Nothing is wrong with a segment. -/
def Segment.IsSound (s : Segment) : Prop :=
  match s.meaning with
  | .layout | .token _ _ => True
  | .problem _ | .illegible => False

theorem Segment.IsSound.problem?_eq {s : Segment} (h : s.IsSound) : s.problem? = none := by
  unfold IsSound at h
  unfold problem?
  split at h <;> simp_all

theorem errorsOf_of_isSound {found : List Segment} (h : ∀ s ∈ found, s.IsSound) (line : Int) :
    errorsOf line found = [] := by
  induction found generalizing line with
  | nil => rfl
  | cons s found ih =>
    obtain ⟨hs, hfound⟩ := List.forall_mem_cons.mp h
    rw [errorsOf_cons, hs.problem?_eq, ih hfound]
    rfl

/-- The tokens of a text, apart from their lines, are those of its segments and the end mark. -/
theorem map_unplaced_tokensOf (found : List Segment) (line : Int) :
    ∃ ts last, tokensOf line found = ts ++ [.ending last] ∧
      ts.map Token.unplaced = found.filterMap Segment.token? := by
  induction found generalizing line with
  | nil => exact ⟨[], line, tokensOf_nil line, rfl⟩
  | cons s found ih =>
    obtain ⟨ts, last, hts, hmap⟩ := ih (line + newlines s.text)
    cases ht : s.token? with
    | none => exact ⟨ts, last, by simp [tokensOf_cons, ht, hts], by simp [ht, hmap]⟩
    | some t =>
      refine ⟨{ t with line := line + newlines s.text } :: ts, last, ?_, ?_⟩
      · simp [tokensOf_cons, ht, hts]
      · have hplain : ({ t with line := line + newlines s.text } : Token).unplaced = t :=
          Segment.unplaced_of_token? ht
        simp [ht, hmap, hplain]

/-- In front of a text with a property, the characters are cut into sound segments of their own,
which stand for tokens with the given symbols. -/
def Reads (cs : List Char) (σs : List Symbol) (P : List Char → Prop) : Prop :=
  ∀ rest, P rest → ∃ found, segments (cs ++ rest) = found ++ segments rest ∧
    (∀ s ∈ found, s.IsSound) ∧ (found.filterMap Segment.token?).map Token.symbol = σs

/-- In front of any text. -/
def Anywhere (_ : List Char) : Prop := True

/-- In front of the end or one of the characters that belong to no other token than their own. -/
def Apart (rest : List Char) : Prop :=
  ∀ c ∈ rest.head?, c = ' ' ∨ c = ')' ∨ c = ';' ∨ c = '\n'

/-- In front of the end or any character but an equals sign. -/
def NotEquals (rest : List Char) : Prop := ∀ c ∈ rest.head?, c ≠ '='

namespace Reads

variable {cs ds : List Char} {σs τs : List Symbol} {P Q : List Char → Prop}

theorem nil : Reads [] [] P := fun rest _ => ⟨[], by simp⟩

theorem mono (h : Reads cs σs P) (hpq : ∀ rest, Q rest → P rest) : Reads cs σs Q :=
  fun rest hrest => h rest (hpq rest hrest)

theorem append (h : Reads cs σs P) (hd : Reads ds τs Q) (hpq : ∀ rest, Q rest → P (ds ++ rest)) :
    Reads (cs ++ ds) (σs ++ τs) Q := by
  intro rest hrest
  obtain ⟨found, hfound, hsound, hsymbols⟩ := h (ds ++ rest) (hpq rest hrest)
  obtain ⟨others, hothers, hosound, hosymbols⟩ := hd rest hrest
  refine ⟨found ++ others, ?_, ?_, ?_⟩
  · rw [List.append_assoc, hfound, hothers, List.append_assoc]
  · intro s hs
    rcases List.mem_append.mp hs with hs | hs
    · exact hsound s hs
    · exact hosound s hs
  · rw [List.filterMap_append, List.map_append, hsymbols, hosymbols]

end Reads

theorem segments_cons {c : Char} {cs text rest : List Char} {meaning : Meaning}
    (h : Cut.follow [c] c cs = ⟨⟨text, meaning⟩, rest⟩) :
    segments (c :: cs) = ⟨c :: text, meaning⟩ :: segments rest := by
  rw [segments]
  simp [Cut.first, h, Cut.after]

variable {c : Char} {cs : List Char} {P : List Char → Prop}

/-- A lexeme that is cut off as a whole reads as its token. -/
theorem reads_token {kind : Kind} {datum : Datum}
    (h : ∀ rest, P rest → Cut.follow [c] c (cs ++ rest) = ⟨⟨cs, .token kind datum⟩, rest⟩) :
    Reads (c :: cs) [(⟨kind, .ofList (c :: cs), datum, 0⟩ : Token).symbol] P := by
  intro rest hrest
  refine ⟨[⟨c :: cs, .token kind datum⟩], segments_cons (h rest hrest), ?_, rfl⟩
  simp [Segment.IsSound]

theorem reads_single {kind : Kind} (h : Kind.singles.lookup c = some kind) :
    Reads [c] [(⟨kind, .ofList [c], .nil, 0⟩ : Token).symbol] Anywhere := by
  apply reads_token
  intro rest _
  simp [Cut.follow, h]

theorem reads_layout (h : isLayout c = true) (hs : Kind.singles.lookup c = none)
    (hp : Kind.pairs.lookup c = none) (hc : c ≠ '/') : Reads [c] [] Anywhere := by
  intro rest _
  refine ⟨[⟨[c], .layout⟩], segments_cons ?_, ?_, rfl⟩
  · simp [Cut.follow, h, hs, hp, hc]
  · simp [Segment.IsSound]

theorem reads_alone {alone paired : Kind} (hs : Kind.singles.lookup c = none)
    (hp : Kind.pairs.lookup c = some (alone, paired)) :
    Reads [c] [(⟨alone, .ofList [c], .nil, 0⟩ : Token).symbol] NotEquals := by
  apply reads_token
  intro rest hrest
  simp only [Cut.follow, hs, hp, List.nil_append]
  cases rest with
  | nil => rfl
  | cons d ds =>
    have hd : d ≠ '=' := hrest d rfl
    unfold Cut.pair
    split
    · rename_i heq
      exact absurd (List.cons.inj heq).1 hd
    · rfl

theorem reads_paired {alone paired : Kind} (hs : Kind.singles.lookup c = none)
    (hp : Kind.pairs.lookup c = some (alone, paired)) :
    Reads [c, '='] [(⟨paired, .ofList [c, '='], .nil, 0⟩ : Token).symbol] Anywhere := by
  apply reads_token
  intro rest _
  simp [Cut.follow, hs, hp, Cut.pair]

theorem reads_slash :
    Reads ['/'] [(⟨.slash, .ofList ['/'], .nil, 0⟩ : Token).symbol] Apart := by
  apply reads_token
  intro rest hrest
  change Cut.slash rest = _
  cases rest with
  | nil => rfl
  | cons d ds =>
    have hd : d ≠ '/' := by
      rintro rfl
      have h := hrest '/' rfl
      simp at h
    unfold Cut.slash
    split
    · rename_i heq
      exact absurd (List.cons.inj heq).1 hd
    · rfl

theorem takeWhile_front {p : Char → Bool} {rest : List Char} (h : ∀ d ∈ cs, p d = true)
    (hrest : ∀ d ∈ rest.head?, p d = false) : (cs ++ rest).takeWhile p = cs := by
  rw [List.takeWhile_append_of_pos h]
  cases rest with
  | nil => simp
  | cons d ds => simp [hrest d rfl]

theorem dropWhile_front {p : Char → Bool} {rest : List Char} (h : ∀ d ∈ cs, p d = true)
    (hrest : ∀ d ∈ rest.head?, p d = false) : (cs ++ rest).dropWhile p = rest := by
  rw [List.dropWhile_append_of_pos h]
  cases rest with
  | nil => rfl
  | cons d ds => simp [hrest d rfl]

/-- A character with a property is not in a table of characters without it. -/
theorem lookup_eq_none {α : Type} {p : Char → Bool} (hc : p c = true) {table : List (Char × α)}
    (h : ∀ entry ∈ table, p entry.1 = false) : table.lookup c = none := by
  rw [List.lookup_eq_none_iff]
  intro entry hentry
  have hne : c ≠ entry.1 := by
    intro heq
    have hfalse := h entry hentry
    rw [← heq, hc] at hfalse
    cases hfalse
  simpa using hne

theorem ne_of_class {p : Char → Bool} {d : Char} (hc : p c = true) (hd : p d = false) : c ≠ d := by
  rintro rfl
  rw [hc] at hd
  cases hd

theorem ne_of_not_mem {c : Char} (h : c ∉ cs) : ∀ d ∈ cs, decide (d ≠ c) = true := by
  intro d hd
  rw [decide_eq_true_eq]
  rintro rfl
  exact h hd

/-- A string without a double quote in it ends at the next one. -/
theorem string_closed (h : '\x22' ∉ cs) (rest : List Char) :
    Cut.string ['\x22'] (cs ++ ['\x22'] ++ rest) =
      ⟨⟨cs ++ ['\x22'], .token .string (.value (.text (.ofList cs)))⟩, rest⟩ := by
  have htake : (cs ++ '\x22' :: rest).takeWhile (· ≠ '\x22') = cs :=
    takeWhile_front (ne_of_not_mem h) (by simp)
  have hdrop : (cs ++ '\x22' :: rest).dropWhile (· ≠ '\x22') = '\x22' :: rest :=
    dropWhile_front (ne_of_not_mem h) (by simp)
  rw [List.append_assoc, List.singleton_append, Cut.string]
  simp only [htake, hdrop]
  simp

/-- A string without a double quote in it reads as its text. -/
theorem reads_string (h : '\x22' ∉ cs) :
    Reads ('\x22' :: (cs ++ ['\x22'])) [.literal .string (.value (.text (.ofList cs)))]
      Anywhere := by
  change Reads _ [(⟨.string, .ofList ('\x22' :: (cs ++ ['\x22'])), .value (.text (.ofList cs)), 0⟩ :
    Token).symbol] _
  exact reads_token fun rest _ => string_closed h rest

theorem Apart.not {rest : List Char} (h : Apart rest) {p : Char → Bool} (hspace : p ' ' = false)
    (hparen : p ')' = false) (hsemicolon : p ';' = false) (hnewline : p '\n' = false) :
    ∀ d ∈ rest.head?, p d = false := by
  intro d hd
  rcases h d hd with rfl | rfl | rfl | rfl <;> assumption

theorem isDigit_of_isWordStart (hc : isWordStart c = true) : c.isDigit = false := by
  cases hd : c.isDigit with
  | false => rfl
  | true =>
    have hdigit : 48 ≤ c.toNat ∧ c.toNat ≤ 57 := Number.Numeral.toNat_of_isDigit hd
    simp only [isWordStart, Char.isAlpha, Char.isUpper, Char.isLower, Bool.or_eq_true,
      Bool.and_eq_true, decide_eq_true_eq] at hc
    rcases hc with (⟨hlow, -⟩ | ⟨hlow, -⟩) | rfl
    · have hupper : 65 ≤ c.toNat := hlow
      omega
    · have hlower : 97 ≤ c.toNat := hlow
      omega
    · cases hd

/-- A class of characters without a blank in it. -/
theorem isLayout_of_class {p : Char → Bool} (hc : p c = true)
    (h : [' ', '\r', '\t', '\n'].any p = false) : isLayout c = false := by
  simp only [List.any_eq_false, List.mem_cons, List.not_mem_nil, or_false] at h
  cases hlayout : isLayout c with
  | false => rfl
  | true =>
    simp only [isLayout, Bool.or_eq_true, decide_eq_true_eq, or_assoc] at hlayout
    exact absurd hc (h c hlayout)

theorem follow_wordStart (hc : isWordStart c = true) (lexeme rest : List Char) :
    Cut.follow lexeme c rest = Cut.word lexeme rest := by
  have hsingles : Kind.singles.lookup c = none := lookup_eq_none hc (by decide)
  have hpairs : Kind.pairs.lookup c = none := lookup_eq_none hc (by decide)
  have hlayout : isLayout c = false := isLayout_of_class hc rfl
  simp [Cut.follow, hsingles, hpairs, ne_of_class hc (d := '/') rfl, hlayout,
    ne_of_class hc (d := '\x22') rfl, isDigit_of_isWordStart hc, hc]

/-- A word reads as itself or as the keyword that it is. -/
theorem reads_word (hc : isWordStart c = true) (hcs : ∀ d ∈ cs, isWordCharacter d = true) :
    Reads (c :: cs)
      [(⟨Kind.ofWord (.ofList (c :: cs)), .ofList (c :: cs), .nil, 0⟩ : Token).symbol] Apart := by
  apply reads_token
  intro rest hrest
  have hapart := hrest.not (p := isWordCharacter) rfl rfl rfl rfl
  rw [follow_wordStart hc, Cut.word, Cut.along, takeWhile_front hcs hapart,
    dropWhile_front hcs hapart]
  rfl

theorem follow_digit (hc : c.isDigit = true) (rest : List Char) :
    Cut.follow [c] c rest = Cut.numeral [c] rest := by
  have hsingles : Kind.singles.lookup c = none := lookup_eq_none hc (by decide)
  have hpairs : Kind.pairs.lookup c = none := lookup_eq_none hc (by decide)
  have hlayout : isLayout c = false := isLayout_of_class hc rfl
  simp [Cut.follow, hsingles, hpairs, hlayout, ne_of_class hc (d := '/') rfl,
    ne_of_class hc (d := '\x22') rfl, hc]

theorem numeral_whole (hcs : ∀ d ∈ cs, d.isDigit = true) {rest : List Char} (h : Apart rest) :
    Cut.numeral [c] (cs ++ rest) = ⟨⟨cs, Cut.numeralMeaning (c :: cs)⟩, rest⟩ := by
  have hdigit := h.not (p := Char.isDigit) rfl rfl rfl rfl
  have hpoint := h.not (p := (· = '.')) rfl rfl rfl rfl
  rw [Cut.numeral, takeWhile_front hcs hdigit, dropWhile_front hcs hdigit]
  split
  · exact absurd (hpoint '.' rfl) (by simp)
  · rfl

theorem numeral_fraction {d : Char} {ds : List Char} (hcs : ∀ d ∈ cs, d.isDigit = true)
    (hds : ∀ e ∈ d :: ds, e.isDigit = true) {rest : List Char} (h : Apart rest) :
    Cut.numeral [c] (cs ++ '.' :: d :: ds ++ rest) =
      ⟨⟨cs ++ '.' :: d :: ds, Cut.numeralMeaning (c :: (cs ++ '.' :: d :: ds))⟩, rest⟩ := by
  have hdigit := h.not (p := Char.isDigit) rfl rfl rfl rfl
  have htake : (cs ++ '.' :: (d :: ds ++ rest)).takeWhile Char.isDigit = cs :=
    takeWhile_front hcs (by simp)
  have hdrop : (cs ++ '.' :: (d :: ds ++ rest)).dropWhile Char.isDigit =
      '.' :: (d :: ds ++ rest) := dropWhile_front hcs (by simp)
  rw [List.append_assoc, List.cons_append, Cut.numeral, htake, hdrop, List.cons_append]
  simp only [hds d (by simp), if_true]
  rw [← List.cons_append, Cut.along, takeWhile_front hds hdigit, dropWhile_front hds hdigit]
  simp [Cut.after]

/-- A numeral reads as the number that its text is. -/
theorem reads_numeral {whole fraction : List Char} (h : Number.AreDigits whole fraction) {x : Float}
    (hx : Number.Numeral.read? (Number.pointed whole fraction) = some x) :
    Reads (Number.pointed whole fraction) [.literal .number (.value (.number x))] Apart := by
  obtain ⟨c, cs, rfl⟩ := List.exists_cons_of_ne_nil h.nonempty
  obtain ⟨hc, hcs⟩ := List.forall_mem_cons.mp h.whole
  have hmeaning : Cut.numeralMeaning (Number.pointed (c :: cs) fraction) =
      .token .number (.value (.number x)) := by
    rw [Cut.numeralMeaning, hx]
  cases fraction with
  | nil =>
    change Reads _ [(⟨.number, .ofList (c :: cs), .value (.number x), 0⟩ : Token).symbol] _
    apply reads_token
    intro rest hrest
    rw [follow_digit hc, numeral_whole hcs hrest]
    exact congrArg (fun m => (⟨⟨cs, m⟩, rest⟩ : Cut)) hmeaning
  | cons d ds =>
    change Reads (c :: (cs ++ '.' :: d :: ds))
      [(⟨.number, .ofList (c :: (cs ++ '.' :: d :: ds)), .value (.number x), 0⟩ : Token).symbol] _
    apply reads_token
    intro rest hrest
    rw [follow_digit hc, numeral_fraction hcs h.fraction hrest]
    exact congrArg (fun m => (⟨⟨cs ++ '.' :: d :: ds, m⟩, rest⟩ : Cut)) hmeaning

end ExprScript
