import ExprScript.Proofs.JoinedTexts
import ExprScript.Proofs.Reports
import ExprScript.Proofs.Stretches

namespace ExprScript

theorem Token.carries_of_kind {t : Token} (hnumber : t.kind ≠ .number)
    (hstring : t.kind ≠ .string) : t.Carries :=
  ⟨fun hk => absurd hk hnumber, fun hk => absurd hk hstring⟩

/-- No lexeme stands for the end, and a literal has a value of its sort. -/
theorem Lexeme.token_carries {text : List Char} {m : Meaning} (h : Lexeme text m) {t : Token}
    (ht : (⟨text, m⟩ : Segment).token? = some t) : t.kind ≠ .eof ∧ t.Carries := by
  cases h with
  | blank hc => cases ht
  | comment hbody => cases ht
  | @keyword word kind h =>
    have hall : ∀ e ∈ Kind.keywords, e.2 ≠ .eof ∧ e.2 ≠ .number ∧ e.2 ≠ .string := by decide
    obtain ⟨hend, hnumber, hstring⟩ := hall _ h
    obtain rfl := Option.some.inj ht
    exact ⟨hend, Token.carries_of_kind hnumber hstring⟩
  | name hc hcs hword =>
    obtain rfl := Option.some.inj ht
    simp [Token.Carries]
  | numeral h =>
    obtain rfl := Option.some.inj ht
    simp [Token.Carries]
  | string hbody =>
    obtain rfl := Option.some.inj ht
    simp [Token.Carries]
  | @mark text kind h =>
    have hall : ∀ e ∈ marks, e.2 ≠ .eof ∧ e.2 ≠ .number ∧ e.2 ≠ .string := by decide
    obtain ⟨hend, hnumber, hstring⟩ := hall _ h
    obtain rfl := Option.some.inj ht
    exact ⟨hend, Token.carries_of_kind hnumber hstring⟩

theorem Leads.token_carries {cs : List Char} {s : Segment} (h : Leads cs s) {t : Token}
    (ht : s.token? = some t) : t.kind ≠ .eof ∧ t.Carries := by
  cases h with
  | lexeme h hfront hlongest => exact h.token_carries ht
  | stray h _ => cases h <;> cases ht

/-- The tokens of a text end with the end mark. In front of it each is that of a piece of the text,
up to its line. -/
theorem exists_scan_pieces (source : String) :
    ∃ ts last, (scan source).tokens = ts ++ [.ending last] ∧
      ∀ t ∈ ts, ∃ cs s, Leads cs s ∧ s.token? = some t.unplaced := by
  obtain ⟨ts, last, htokens, hplain⟩ := map_unplaced_tokensOf (segments source.toList) 1
  have hfalls : FallsInto source.toList (segments source.toList) := fallsInto_iff.mpr rfl
  refine ⟨ts, last, (scan_tokens source).trans htokens, fun t ht => ?_⟩
  have hmem : t.unplaced ∈ (segments source.toList).filterMap Segment.token? := by
    rw [← hplain]
    exact List.mem_map_of_mem ht
  obtain ⟨s, hs, hst⟩ := List.mem_filterMap.mp hmem
  obtain ⟨rest, hleads⟩ := hfalls.exists_leads s hs
  exact ⟨_, s, hleads, hst⟩

/-- None of the tokens in front of the end mark of a text is one, and their literals have values. -/
theorem exists_scan_tokens (source : String) :
    ∃ ts last, (scan source).tokens = ts ++ [.ending last] ∧
      (∀ t ∈ ts, t.kind ≠ .eof) ∧ ∀ t ∈ ts, t.Carries := by
  obtain ⟨ts, last, htokens, hpieces⟩ := exists_scan_pieces source
  have hall : ∀ t ∈ ts, t.kind ≠ .eof ∧ t.Carries := by
    intro t ht
    obtain ⟨cs, s, hleads, hst⟩ := hpieces t ht
    exact hleads.token_carries (t := t.unplaced) hst
  exact ⟨ts, last, htokens, fun t ht => (hall t ht).1, fun t ht => (hall t ht).2⟩

theorem carries_of_mem_scan {source : String} {t : Token} (h : t ∈ (scan source).tokens) :
    t.Carries := by
  obtain ⟨ts, last, htokens, -, hcarry⟩ := exists_scan_tokens source
  rw [htokens] at h
  rcases List.mem_append.mp h with ht | ht
  · exact hcarry t ht
  · obtain rfl := List.mem_singleton.mp ht
    exact Token.carries_of_kind (by simp [Token.ending]) (by simp [Token.ending])

/-- The tokens of a text are read one declaration after another up to the end mark. -/
theorem exists_stretches_scan (source : String) :
    ∃ xs last, Stretches (scan source).tokens xs [.ending last] := by
  obtain ⟨ts, last, htokens, hinside, hcarry⟩ := exists_scan_tokens source
  obtain ⟨xs, hxs⟩ := Grammar.stretches_to_end hinside hcarry (e := .ending last) rfl
  exact ⟨xs, last, htokens ▸ hxs []⟩

namespace Spelled

variable {ss rs : List Statement} {ts us : List Token}

theorem append (h : Spelled ss ts) (hr : Spelled rs us) : Spelled (ss ++ rs) (ts ++ us) := by
  induction h with
  | nil => exact hr
  | cons first others ih =>
    rw [List.cons_append, List.append_assoc]
    exact .cons first ih

theorem moved (h : Spelled ss ts) (f : Int → Int) :
    Spelled (ss.map (Statement.moved f)) (ts.map (Token.moved f)) := by
  induction h with
  | nil => exact .nil
  | cons first others ih =>
    rw [List.map_cons, List.map_append]
    exact .cons (first.moved f) ih

end Spelled

namespace Script

/-- A script is all that a text gives, and what is wrong with it stands in the order of the text:
the problems of its pieces with the lines on which they end, the violations of the grammar at tokens
one behind the other. -/
structure IsReadingOf (script : Script) (source : String) : Prop where
  pieces : ∃ found, FallsInto source.toList found ∧
    script.lexical = onLines (fun s => s.problem?.map fun what line => ⟨line, what⟩) 1 found
  lexical : (scan source).errors = script.lexical
  program : ∃ last, Grammar.program (scan source).tokens =
    ⟨.ok script.statements, script.syntactic, [.ending last]⟩
  syntactic : (script.syntactic.map SyntaxError.token).Sublist (scan source).tokens

theorem read_isReadingOf (source : String) : (read source).IsReadingOf source := by
  obtain ⟨xs, last, hall⟩ := exists_stretches_scan source
  have herrors : (read source).syntactic = xs.flatMap Stretch.errors := by
    simp only [read, hall.program_eq]
  refine ⟨⟨segments source.toList, fallsInto_iff.mpr rfl, scan_errors source⟩, rfl, ⟨last, ?_⟩, ?_⟩
  · simp only [read, hall.program_eq]
  · rw [herrors, hall.tokens_eq]
    exact hall.errors_sublist

/-- The tokens of a text with nothing wrong in it spell its statements. -/
theorem exists_spelled {source : String} (h : (read source).isSound = true) :
    ∃ ts last, (scan source).tokens = ts ++ [.ending last] ∧
      Spelled (read source).statements ts := by
  obtain ⟨ts, last, htokens, hinside, -⟩ := exists_scan_tokens source
  obtain ⟨stop, hprogram⟩ := (read_isReadingOf source).program
  have hclean : (Grammar.program (scan source).tokens).errors = [] := by
    rw [hprogram]
    exact (isSound_iff.mp h).2
  obtain ⟨front, e, more, hsplit, he, hspelled⟩ :=
    Grammar.spelled_of_program (fun t ht => carries_of_mem_scan ht) (by rw [hprogram]) hclean
  rw [htokens] at hsplit
  obtain ⟨rfl, -⟩ := append_eof_inj hinside hspelled.ne_eof rfl he hsplit
  exact ⟨ts, last, htokens, hspelled⟩

/-- Tokens that spell statements are read as them. -/
theorem read_of_spelled {source : String} {ss : List Statement} {ts : List Token} {last : Int}
    (htokens : (scan source).tokens = ts ++ [.ending last]) (h : Spelled ss ts)
    (hclean : (scan source).errors = []) : read source = ⟨ss, [], []⟩ := by
  have hprogram := Grammar.program_run h (e := .ending last) rfl []
  simp only [read, htokens, hprogram, hclean]

/-- Two texts with nothing wrong in them, the one behind a newline, are read as the statements of
both. -/
theorem read_append_line {p q : String} (hp : (read p).isSound = true)
    (hq : (read q).isSound = true) :
    read (p ++ "\n" ++ q) =
      ⟨(read p).statements ++
        (read q).statements.map (Statement.moved (· + (1 + newlines p.toList))), [], []⟩ := by
  obtain ⟨ts, last, htokens, hspelled⟩ := exists_spelled hp
  obtain ⟨us, last', htokens', hspelled'⟩ := exists_spelled hq
  have hcleanp : (scan p).errors = [] := (isSound_iff.mp hp).1
  have hcleanq : (scan q).errors = [] := (isSound_iff.mp hq).1
  have hclosed : ∀ e ∈ (scan p).errors, e.problem ≠ .unterminatedString := by simp [hcleanp]
  have hjoined := scan_tokens_append_line hclosed q
  rw [htokens, List.dropLast_concat, htokens', List.map_append, ← List.append_assoc] at hjoined
  refine read_of_spelled hjoined (hspelled.append (hspelled'.moved _)) ?_
  rw [scan_errors_append_line hclosed, hcleanp, hcleanq]
  rfl

end Script

end ExprScript
