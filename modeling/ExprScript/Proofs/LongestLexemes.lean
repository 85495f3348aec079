import ExprScript.Proofs.Cuts
import ExprScript.Proofs.Lexicon

namespace ExprScript

theorem mem_of_lookup {α : Type} {table : List (Char × α)} {c : Char} {a : α}
    (h : table.lookup c = some a) : (c, a) ∈ table := by
  obtain ⟨before, after, rfl, -⟩ := List.lookup_eq_some_iff.mp h
  simp

theorem pair_lexeme {c : Char} {alone paired : Kind} (hc : (c, alone, paired) ∈ Kind.pairs)
    (cs : List Char) :
    Lexeme (c :: (Cut.pair alone paired cs).text) (Cut.pair alone paired cs).meaning := by
  have hall : ∀ e ∈ Kind.pairs, (String.ofList [e.1], e.2.1) ∈ marks ∧
      (String.ofList [e.1, '='], e.2.2) ∈ marks := by decide +kernel
  obtain ⟨halone, hpaired⟩ := hall _ hc
  unfold Cut.pair
  split
  · simpa using Lexeme.mark hpaired
  · simpa using Lexeme.mark halone

theorem slash_lexeme (cs : List Char) :
    Lexeme ('/' :: (Cut.slash cs).text) (Cut.slash cs).meaning := by
  unfold Cut.slash
  split
  · rename_i more
    refine .comment fun hmem => ?_
    have hne := List.mem_takeWhile_imp hmem
    simp at hne
  · have hmark : ("/", Kind.slash) ∈ marks := by decide
    exact Lexeme.mark hmark

theorem word_lexeme {c : Char} (hc : isWordStart c = true) (cs : List Char) :
    Lexeme (c :: (Cut.word [c] cs).text) (Cut.word [c] cs).meaning := by
  have hcs : ∀ d ∈ cs.takeWhile isWordCharacter, isWordCharacter d = true :=
    fun d hd => List.mem_takeWhile_imp hd
  change Lexeme (c :: cs.takeWhile isWordCharacter)
    (.token (Kind.ofWord (.ofList (c :: cs.takeWhile isWordCharacter))) .nil)
  generalize cs.takeWhile isWordCharacter = tail at hcs
  unfold Kind.ofWord
  cases hword : Kind.keywords.lookup (String.ofList (c :: tail)) with
  | some kind =>
    obtain ⟨before, after, hsplit, -⟩ := List.lookup_eq_some_iff.mp hword
    have hmem : (String.ofList (c :: tail), kind) ∈ Kind.keywords := by simp [hsplit]
    simpa using Lexeme.keyword hmem
  | none =>
    refine .name (by simpa [isWordStart] using hc) (fun d hd => ?_) fun entry hentry heq => ?_
    · have hd := hcs d hd
      simp only [isWordCharacter, isWordStart, Bool.or_eq_true, decide_eq_true_eq] at hd
      simp only [Char.isAlphanum, Bool.or_eq_true]
      tauto
    · have hne := List.lookup_eq_none_iff.mp hword entry hentry
      simp [← heq] at hne

theorem string_lexeme_or_stray (cs : List Char) :
    Lexeme ('\x22' :: (Cut.string ['\x22'] cs).text) (Cut.string ['\x22'] cs).meaning ∨
      Stray ('\x22' :: cs)
        ⟨'\x22' :: (Cut.string ['\x22'] cs).text, (Cut.string ['\x22'] cs).meaning⟩ := by
  have hbody : '\x22' ∉ cs.takeWhile (· ≠ '\x22') := by
    intro hmem
    have hne := List.mem_takeWhile_imp hmem
    simp at hne
  have hwhole : cs.takeWhile (· ≠ '\x22') ++ cs.dropWhile (· ≠ '\x22') = cs :=
    List.takeWhile_append_dropWhile
  unfold Cut.string
  dsimp only
  split
  · rename_i hnil
    right
    rw [hnil, List.append_nil] at hwhole
    rw [hwhole]
    exact .openString
  · rename_i quote rest hcons
    left
    have hquote : quote = '\x22' := by
      have hhead := List.head?_dropWhile_not (· ≠ '\x22') cs
      rw [hcons] at hhead
      simpa using hhead
    subst hquote
    simpa using Lexeme.string hbody

/-- What is cut off at the front of a text is a lexeme or a stray piece. -/
theorem first_lexeme_or_stray (c : Char) (cs : List Char) :
    Lexeme (Cut.first [] c cs).text (Cut.first [] c cs).meaning ∨
      Stray (c :: cs) (Cut.first [] c cs).toSegment := by
  change Lexeme (c :: (Cut.follow [c] c cs).text) (Cut.follow [c] c cs).meaning ∨
    Stray (c :: cs) ⟨c :: (Cut.follow [c] c cs).text, (Cut.follow [c] c cs).meaning⟩
  -- The cases are those of the first character, in the order in which it is looked at.
  unfold Cut.follow
  split
  · rename_i kind hsingle
    have hall : ∀ e ∈ Kind.singles, (String.ofList [e.1], e.2) ∈ marks := by decide +kernel
    left
    simpa using Lexeme.mark (hall _ (mem_of_lookup hsingle))
  split
  · rename_i alone paired hpair
    exact .inl (pair_lexeme (mem_of_lookup hpair) cs)
  split
  · rename_i hslash
    subst hslash
    exact .inl (slash_lexeme cs)
  split
  · rename_i hlayout
    exact .inl (.blank (by simpa [isLayout, or_assoc] using hlayout))
  split
  · rename_i hquote
    subst hquote
    exact string_lexeme_or_stray cs
  split
  · rename_i hdigit
    obtain ⟨whole, fraction, hdigits, htext⟩ := numeral_pointed hdigit cs
    left
    rw [numeral_meaning, List.singleton_append, htext, numeralMeaning_pointed hdigits]
    exact .numeral hdigits
  split
  · rename_i hletter
    exact .inl (word_lexeme hletter cs)
  · rename_i hquote _ _
    exact .inr (.character hquote)

/-- The cut at the front of a text leads it. -/
theorem first_leads (c : Char) (cs : List Char) :
    Leads (c :: cs) (Cut.first [] c cs).toSegment := by
  have hcovers : ∀ text m, Lexeme text m → text <+: c :: cs →
      (Cut.first [] c cs).Covers text m := by
    rintro text m h ⟨rest, hsplit⟩
    obtain ⟨d, ds, rfl, hall⟩ := h.covered
    obtain ⟨rfl, rfl⟩ := List.cons.inj hsplit
    exact hall rest
  rcases first_lexeme_or_stray c cs with h | h
  · refine .lexeme h ⟨_, Cut.first_joins [] c cs⟩ fun text m hlexeme hfront => ?_
    exact (hcovers text m hlexeme hfront).front.length_le
  · refine .stray h fun text m hlexeme hfront => ?_
    have hsound := (hcovers text m hlexeme hfront).sound
    generalize (Cut.first [] c cs).toSegment = s at h hsound
    cases h <;> exact hsound

/-- A text by itself stands for one thing at most. -/
theorem Lexeme.meaning_unique {text : List Char} {m n : Meaning} (hm : Lexeme text m)
    (hn : Lexeme text n) : m = n := by
  obtain ⟨c, cs, rfl, hcm⟩ := hm.covered
  obtain ⟨d, ds, heq, hcn⟩ := hn.covered
  obtain ⟨rfl, rfl⟩ := List.cons.inj heq
  have hwhole : (Cut.first [] c (cs ++ [])).text = c :: cs := by
    have hcut : (Cut.first [] c (cs ++ [])).text <+: c :: (cs ++ []) :=
      ⟨_, Cut.first_joins [] c (cs ++ [])⟩
    have hfront := (hcm []).front
    rw [List.append_nil] at hcut hfront ⊢
    exact hcut.eq_of_length (Nat.le_antisymm hcut.length_le hfront.length_le)
  exact ((hcm []).exact hwhole).symm.trans ((hcn []).exact hwhole)

theorem Lexeme.ne_illegible {text : List Char} {m : Meaning} (h : Lexeme text m) :
    m ≠ .illegible := by
  cases h <;> simp

theorem Lexeme.ne_nil {text : List Char} {m : Meaning} (h : Lexeme text m) : text ≠ [] := by
  obtain ⟨c, cs, rfl, -⟩ := h.covered
  simp

/-- A text is led by one segment at most. -/
theorem Leads.unique {cs : List Char} {s r : Segment} (hs : Leads cs s) (hr : Leads cs r) :
    s = r := by
  obtain ⟨text, m⟩ := s
  obtain ⟨other, n⟩ := r
  cases hs with
  | lexeme h hfront hlongest =>
    cases hr with
    | lexeme h' hfront' hlongest' =>
      have hlength := Nat.le_antisymm (hlongest' _ _ h hfront) (hlongest _ _ h' hfront')
      have hprefix := List.prefix_of_prefix_length_le hfront hfront' hlength.le
      obtain rfl : text = other := hprefix.eq_of_length hlength
      exact congrArg (Segment.mk text) (h.meaning_unique h')
    | stray h' hnone => exact absurd hfront (hnone _ _ h)
  | stray h hnone =>
    cases hr with
    | lexeme h' hfront' hlongest' => exact absurd hfront' (hnone _ _ h')
    | stray h' hnone' =>
      cases h with
      | openString =>
        cases h' with
        | openString => rfl
        | character hc => exact absurd rfl hc
      | character hc =>
        cases h' with
        | openString => exact absurd rfl hc
        | character hc' => rfl

theorem Leads.ne_nil {cs : List Char} {s : Segment} (h : Leads cs s) : cs ≠ [] := by
  rintro rfl
  cases h with
  | lexeme h hfront hlongest => exact h.ne_nil (List.prefix_nil.mp hfront)
  | stray h hnone => cases h

/-- A segment takes at least one character. -/
theorem Leads.text_ne_nil {cs : List Char} {s : Segment} (h : Leads cs s) : s.text ≠ [] := by
  cases h with
  | lexeme h _ _ => exact h.ne_nil
  | stray h _ => cases h <;> simp

/-- Each text falls into its segments and into no others. -/
theorem fallsInto_iff {cs : List Char} {found : List Segment} :
    FallsInto cs found ↔ found = segments cs := by
  constructor
  · intro h
    induction h with
    | nil => rw [segments]
    | @cons s rest found h others ih =>
      obtain ⟨c, cs, hcs⟩ := List.exists_cons_of_ne_nil h.ne_nil
      rw [hcs] at h ⊢
      have hs := h.unique (first_leads c cs)
      have hjoins : _ ++ _ = _ := Cut.first_joins [] c cs
      rw [← hs, ← hcs] at hjoins
      have hrest : _ = rest := List.append_cancel_left hjoins
      rw [segments, hrest, ← hs, ← ih]
  · rintro rfl
    fun_induction segments cs with
    | case1 => exact .nil
    | case2 c cs cut ih =>
      have hjoins : cut.text ++ cut.rest = c :: cs := Cut.first_joins [] c cs
      have hleads := first_leads c cs
      rw [← hjoins] at hleads ⊢
      exact .cons hleads ih

/-- A lexeme by itself is one segment. -/
theorem Lexeme.segments_eq {text : List Char} {m : Meaning} (h : Lexeme text m) :
    segments text = [⟨text, m⟩] := by
  have hleads : Leads (text ++ []) ⟨text, m⟩ :=
    .lexeme h (List.prefix_append _ _) fun _ _ _ hfront => by simpa using hfront.length_le
  have hfalls : FallsInto (text ++ []) [⟨text, m⟩] := .cons (s := ⟨text, m⟩) hleads .nil
  rw [List.append_nil] at hfalls
  exact (fallsInto_iff.mp hfalls).symm

theorem first_meaning_ne (c : Char) (cs : List Char) :
    (Cut.first [] c cs).meaning ≠ .illegible := by
  rcases first_lexeme_or_stray c cs with h | h
  · exact h.ne_illegible
  · generalize (Cut.first [] c cs).toSegment = s at h
    cases h <;> simp

namespace Lexer

/-- Reading one lexeme after another while text is left gets from the one place to the other and
meets no fault. -/
inductive ReadsTo : Lexer → Lexer → Prop where
  | stop {l : Lexer} (h : l.isAtEnd = true) : ReadsTo l l
  | next {l m last : Lexer} (h : l.isAtEnd = false) (hnext : next l = .ok () m)
    (others : ReadsTo m last) : ReadsTo l last

/-- The lexer passes a segment and records what it stands for, on the line on which it ends. -/
structure Passes (l : Lexer) (s : Segment) (m : Lexer) : Prop where
  rest : l.rest = s.text ++ m.rest
  position : m.position = l.position + s.text.length
  line : m.line = l.line + newlines s.text
  tokens : m.tokens = l.tokens ++ (s.token?.map fun t => { t with line := m.line }).toList
  errors : m.errors = l.errors ++ (s.problem?.map fun what => ⟨m.line, what⟩).toList

/-- A cut that starts a lexeme and stands for something is passed. -/
theorem passes_of_take {l : Lexer} {cut : Cut} (h : cut.meaning ≠ .illegible)
    (hjoins : cut.Joins l.rest) :
    ∃ m, l.restart.take cut = .ok () m ∧ l.Passes cut.toSegment m := by
  have hjoins : cut.text ++ cut.rest = l.rest := hjoins
  rw [take]
  cases hm : cut.meaning with
  | illegible => exact absurd hm h
  | _ =>
    refine ⟨_, rfl, ?_⟩
    constructor <;>
      simp [past, restart, position, lexeme, Segment.token?, Segment.problem?, hm, hjoins]

/-- Where text is left, the next step passes the segment that leads it and meets no fault. -/
theorem exists_next {l : Lexer} (h : l.isAtEnd = false) :
    ∃ s m, next l = .ok () m ∧ Leads l.rest s ∧ l.Passes s m := by
  obtain ⟨c, cs, hrest⟩ := List.exists_cons_of_ne_nil (List.isEmpty_eq_false_iff.mp h)
  have hnext : next l = l.restart.take (Cut.first [] c cs) := step_eq (l := l.restart) hrest
  obtain ⟨m, hm, hpasses⟩ :=
    passes_of_take (first_meaning_ne c cs) (hrest ▸ Cut.first_joins [] c cs)
  exact ⟨_, m, hnext.trans hm, hrest ▸ first_leads c cs, hpasses⟩

/-- The segments of the text that is left are the one that is passed and those behind it. -/
theorem Passes.segments_eq {l m : Lexer} {s : Segment} (h : l.Passes s m)
    (hleads : Leads l.rest s) : segments l.rest = s :: segments m.rest := by
  rw [h.rest] at hleads ⊢
  exact (fallsInto_iff.mp (.cons hleads (fallsInto_iff.mpr rfl))).symm

/-- Reading step by step gets to the end, and by then has found what the segments stand for. -/
theorem exists_readsTo (l : Lexer) :
    ∃ last, l.ReadsTo last ∧
      l.tokens ++ tokensOf l.line (segments l.rest) = last.tokens ++ [.ending last.line] ∧
      l.errors ++ errorsOf l.line (segments l.rest) = last.errors := by
  -- Every step shortens the text that is left.
  induction hn : l.rest.length using Nat.strongRecOn generalizing l with
  | _ n ih =>
    subst hn
    cases hend : l.isAtEnd with
    | true =>
      have hrest : l.rest = [] := List.isEmpty_iff.mp hend
      refine ⟨l, .stop hend, ?_, ?_⟩
      · rw [hrest, segments, tokensOf_nil]
      · rw [hrest, segments, errorsOf_nil, List.append_nil]
    | false =>
      obtain ⟨s, m, hnext, hleads, hpasses⟩ := exists_next hend
      have hlt : m.rest.length < l.rest.length := by
        have hpos := List.length_pos_iff.mpr hleads.text_ne_nil
        rw [hpasses.rest, List.length_append]
        omega
      obtain ⟨last, hreads, htokens, herrors⟩ := ih m.rest.length hlt m rfl
      refine ⟨last, .next hend hnext hreads, ?_, ?_⟩
      · rw [hpasses.segments_eq hleads, tokensOf_cons, ← hpasses.line, ← List.append_assoc,
          ← hpasses.tokens, htokens]
      · rw [hpasses.segments_eq hleads, errorsOf_cons, ← hpasses.line, ← List.append_assoc,
          ← hpasses.errors, herrors]

/-- Reading all the rest is reading step by step to the end. -/
theorem ReadsTo.readAll_eq {l last : Lexer} (h : l.ReadsTo last) : readAll l = .ok () last := by
  induction h with
  | stop hend => rw [readAll, if_pos hend]
  | next hleft hnext _ ih =>
    rw [readAll, if_neg (Bool.eq_false_iff.mp hleft)]
    split
    · rename_i m hm
      cases hnext.symm.trans hm
      exact ih
    · rename_i why m hm
      cases hnext.symm.trans hm

theorem ReadsTo.finish_eq {l last : Lexer} (h : l.ReadsTo last) :
    finish l = .ok () { last with tokens := last.tokens ++ [.ending last.line] } := by
  rw [finish, bind_ok h.readAll_eq]
  rfl

end Lexer

theorem scan_of_readsTo {source : String} {last : Lexer}
    (h : (Lexer.ofString source).ReadsTo last) :
    scan source = ⟨last.tokens ++ [.ending last.line], last.errors⟩ := by
  rw [scan, h.finish_eq]

theorem scan_eq (source : String) :
    scan source = ⟨tokensOf 1 (segments source.toList), errorsOf 1 (segments source.toList)⟩ := by
  obtain ⟨last, hreads, htokens, herrors⟩ := (Lexer.ofString source).exists_readsTo
  have htokens : tokensOf 1 (segments source.toList) = last.tokens ++ [.ending last.line] := htokens
  have herrors : errorsOf 1 (segments source.toList) = last.errors := herrors
  rw [scan_of_readsTo hreads, htokens, herrors]

theorem scan_tokens (source : String) :
    (scan source).tokens = tokensOf 1 (segments source.toList) := by
  rw [scan_eq]

theorem scan_errors (source : String) :
    (scan source).errors = errorsOf 1 (segments source.toList) := by
  rw [scan_eq]

theorem map_unplaced_scan (source : String) :
    (scan source).tokens.map Token.unplaced =
      (segments source.toList).filterMap Segment.token? ++ [.ending 0] := by
  obtain ⟨ts, last, htokens, hplain⟩ := map_unplaced_tokensOf (segments source.toList) 1
  rw [scan_tokens, htokens, List.map_append, hplain]
  rfl

/-- A text is read by its longest lexemes. No character is lost, each lexeme gives its token and
each stray piece an error, in their order and with the lines on which they end, and reading step by
step meets no fault. -/
theorem scan_longest_lexemes (source : String) :
    ∃ found : List Segment,
      (∀ others, FallsInto source.toList others ↔ others = found) ∧
      found.flatMap Segment.text = source.toList ∧
      (scan source).tokens =
        onLines (fun s => s.token?.map fun t line => { t with line }) 1 found ++
          [.ending (1 + newlines source.toList)] ∧
      (scan source).errors =
        onLines (fun s => s.problem?.map fun what line => ⟨line, what⟩) 1 found ∧
      ∃ last, (Lexer.ofString source).ReadsTo last ∧
        (scan source).tokens = last.tokens ++ [.ending last.line] ∧
        (scan source).errors = last.errors := by
  have hflat : (segments source.toList).flatMap Segment.text = source.toList := by
    rw [List.flatMap_def, flatten_segments]
  obtain ⟨last, hreads, -⟩ := (Lexer.ofString source).exists_readsTo
  refine ⟨segments source.toList, fun others => fallsInto_iff, hflat, ?_, scan_errors source, last,
    hreads, ?_, ?_⟩
  · rw [scan_tokens, tokensOf, hflat]
  · rw [scan_of_readsTo hreads]
  · rw [scan_of_readsTo hreads]

end ExprScript
