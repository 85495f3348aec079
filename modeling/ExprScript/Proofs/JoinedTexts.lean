import ExprScript.Proofs.LongestLexemes

namespace ExprScript

/-- A blank in a lexeme is all of it, or it is inside a comment, which ends with its line, or inside
a string. -/
theorem Lexeme.of_layout_mem {text : List Char} {m : Meaning} (h : Lexeme text m) {c : Char}
    (hc : isLayout c = true) (hmem : c ∈ text) :
    text = [c] ∨ (∃ body, '\n' ∉ body ∧ text = '/' :: '/' :: body) ∨
      ∃ body, '\x22' ∉ body ∧ text = '\x22' :: (body ++ ['\x22']) := by
  -- Characters of all other lexemes belong to a class without blanks.
  have hout {p : Char → Bool} (hp : p c = true) (hnone : [' ', '\r', '\t', '\n'].any p = false) :
      False := by
    rw [isLayout_of_class hp hnone] at hc
    cases hc
  cases h with
  | blank _ =>
    left
    rw [List.mem_singleton.mp hmem]
  | comment hbody => exact .inr (.inl ⟨_, hbody, rfl⟩)
  | @keyword word kind h =>
    have hall : ∀ e ∈ Kind.keywords, e.1.toList.any isLayout = false := by decide +kernel
    exact absurd hc (List.any_eq_false.mp (hall _ h) c hmem)
  | @name d ds hd hds _ =>
    rcases List.mem_cons.mp hmem with rfl | hmem
    · exact (hout (p := isWordStart) (by simpa [isWordStart] using hd) rfl).elim
    · have hword := hds c hmem
      exact (hout (p := fun d => d.isAlphanum || d = '_') (by simpa using hword) rfl).elim
  | numeral h =>
    have hplain : c.isDigit = true ∨ c = '.' := Number.Numeral.isPlain_of_mem_pointed h c hmem
    exact (hout (p := fun d => d.isDigit || d = '.') (by simpa using hplain) rfl).elim
  | string hbody => exact .inr (.inr ⟨_, hbody, rfl⟩)
  | @mark text kind h =>
    have hall : ∀ e ∈ marks, e.1.toList.any isLayout = false := by decide +kernel
    exact absurd hc (List.any_eq_false.mp (hall _ h) c hmem)

/-- What starts with a double quote is a string. -/
theorem Lexeme.of_quote {text : List Char} {m : Meaning} (h : Lexeme ('\x22' :: text) m) :
    ∃ body, '\x22' ∉ body ∧ text = body ++ ['\x22'] := by
  generalize hwhole : '\x22' :: text = cs at h
  have hhead : cs.head? = some '\x22' := by rw [← hwhole, List.head?_cons]
  cases h with
  | blank hc =>
    obtain rfl := Option.some.inj hhead
    simp at hc
  | comment _ => simp at hhead
  | @keyword word kind h =>
    have hall : ∀ e ∈ Kind.keywords, e.1.toList.head? ≠ some '\x22' := by decide +kernel
    exact absurd hhead (hall _ h)
  | name hc _ _ =>
    obtain rfl := Option.some.inj hhead
    simp at hc
  | numeral h =>
    have hplain := Number.Numeral.isPlain_of_mem_pointed h _ (List.mem_of_head? hhead)
    rcases hplain with hdigit | hpoint
    · cases hdigit
    · cases hpoint
  | string hbody => exact ⟨_, hbody, (List.cons.inj hwhole).2⟩
  | @mark text kind h =>
    have hall : ∀ e ∈ marks, e.1.toList.head? ≠ some '\x22' := by decide +kernel
    exact absurd hhead (hall _ h)

/-- The text starts a string and does not end it. -/
def IsOpenString (cs : List Char) : Prop := ∃ body, '\x22' ∉ body ∧ cs = '\x22' :: body

/-- No lexeme stands at the front of an open string. -/
theorem Lexeme.not_open {text cs : List Char} {m : Meaning} (h : Lexeme text m)
    (hfront : text <+: cs) : ¬ IsOpenString cs := by
  rintro ⟨body, hbody, rfl⟩
  obtain ⟨c, text, rfl⟩ := List.exists_cons_of_ne_nil h.ne_nil
  obtain ⟨rfl, hinside⟩ := List.cons_prefix_cons.mp hfront
  obtain ⟨inner, -, rfl⟩ := h.of_quote
  exact hbody (hinside.subset (by simp))

theorem Leads.not_open {cs : List Char} {s : Segment} (h : Leads cs s)
    (hs : s.problem? ≠ some .unterminatedString) : ¬ IsOpenString cs := by
  cases h with
  | lexeme h hfront _ => exact h.not_open hfront
  | stray h _ =>
    cases h with
    | openString => exact absurd rfl hs
    | character hc =>
      rintro ⟨body, -, heq⟩
      exact hc (List.cons.inj heq).1

/-- No lexeme reaches over the end of a line that no string is open on. -/
theorem Lexeme.within_line {cs text rest : List Char} {m : Meaning} (h : Lexeme text m)
    (hcs : cs ≠ []) (hclosed : ¬ IsOpenString cs) (hahead : text <+: cs ++ '\n' :: rest) :
    text <+: cs := by
  rcases Nat.lt_or_ge cs.length text.length with hlong | hshort
  · have hover : cs ++ ['\n'] <+: text := by
      refine List.prefix_of_prefix_length_le ⟨rest, by simp⟩ hahead ?_
      simpa using hlong
    rcases h.of_layout_mem (c := '\n') rfl (hover.subset (by simp)) with rfl | ⟨body, hbody, rfl⟩ |
      ⟨body, hbody, rfl⟩
    · exact absurd (List.length_eq_zero_iff.mp (by simpa using hlong)) hcs
    · have hnewline : '\n' ∈ '/' :: '/' :: body := hover.subset (by simp)
      simp [hbody] at hnewline
    · -- The line would be the front of a string that is closed further on.
      have hfront : cs <+: '\x22' :: body := by
        refine List.prefix_of_prefix_length_le ((List.prefix_append _ _).trans hover)
          ⟨['\x22'], rfl⟩ ?_
        simpa using hlong
      obtain ⟨c, cs, rfl⟩ := List.exists_cons_of_ne_nil hcs
      obtain ⟨rfl, hinside⟩ := List.cons_prefix_cons.mp hfront
      exact absurd ⟨cs, fun hmem => hbody (hinside.subset hmem), rfl⟩ hclosed
  · exact List.prefix_of_prefix_length_le hahead (List.prefix_append _ _) hshort

/-- What leads a text leads it in front of a new line too, unless it is a string left open. -/
theorem Leads.before_newline {cs : List Char} {s : Segment} (h : Leads cs s)
    (hs : s.problem? ≠ some .unterminatedString) (rest : List Char) :
    Leads (cs ++ '\n' :: rest) s := by
  have hwithin : ∀ text m, Lexeme text m → text <+: cs ++ '\n' :: rest → text <+: cs :=
    fun _ _ hlexeme hahead => hlexeme.within_line h.ne_nil (h.not_open hs) hahead
  cases h with
  | lexeme h hfront hlongest =>
    exact .lexeme h (hfront.trans (List.prefix_append _ _)) fun other n hother hahead =>
      hlongest other n hother (hwithin other n hother hahead)
  | stray h hnone =>
    refine .stray ?_ fun other n hother hahead =>
      hnone other n hother (hwithin other n hother hahead)
    cases h with
    | openString => exact absurd rfl hs
    | character hc => exact .character hc

theorem leads_newline (rest : List Char) : Leads ('\n' :: rest) ⟨['\n'], .layout⟩ :=
  first_leads '\n' rest

/-- A text that leaves no string open falls into its segments also in front of a new line. -/
theorem FallsInto.before_newline {cs rest : List Char} {found others : List Segment}
    (h : FallsInto cs found) (hs : ∀ s ∈ found, s.problem? ≠ some .unterminatedString)
    (ho : FallsInto rest others) :
    FallsInto (cs ++ '\n' :: rest) (found ++ ⟨['\n'], .layout⟩ :: others) := by
  induction h with
  | nil => exact .cons (s := ⟨['\n'], .layout⟩) (leads_newline rest) ho
  | @cons s left found h _ ih =>
    obtain ⟨hfirst, hfound⟩ := List.forall_mem_cons.mp hs
    have hleads := h.before_newline hfirst rest
    rw [List.append_assoc] at hleads ⊢
    exact .cons hleads (ih hfound)

theorem FallsInto.exists_leads {cs : List Char} {found : List Segment} (h : FallsInto cs found) :
    ∀ s ∈ found, ∃ rest, Leads rest s := by
  induction h with
  | nil => simp
  | cons h _ ih => exact List.forall_mem_cons.mpr ⟨⟨_, h⟩, ih⟩

/-- The problems of segments are among their errors. -/
theorem mem_problems {found : List Segment} {s : Segment} (hs : s ∈ found) {what : LexicalProblem}
    (hwhat : s.problem? = some what) (line : Int) :
    ∃ e ∈ errorsOf line found, e.problem = what := by
  induction found generalizing line with
  | nil => cases hs
  | cons r found ih =>
    rw [errorsOf_cons]
    rcases List.mem_cons.mp hs with rfl | hs
    · exact ⟨⟨line + newlines s.text, what⟩, by simp [hwhat], rfl⟩
    · obtain ⟨e, he, hproblem⟩ := ih hs (line + newlines r.text)
      exact ⟨e, List.mem_append_right _ he, hproblem⟩

theorem onLines_append {α : Type} (give : Segment → Option (Int → α)) (line : Int)
    (found others : List Segment) :
    onLines give line (found ++ others) = onLines give line found ++
      onLines give (line + newlines (found.flatMap Segment.text)) others := by
  induction found generalizing line with
  | nil => simp [onLines, newlines]
  | cons s found ih =>
    rw [List.cons_append, onLines_cons, onLines_cons, ih, line_cons, List.append_assoc]

/-- What segments give on later lines. -/
theorem onLines_add {α : Type} {give : Segment → Option (Int → α)} {n : Int} {move : α → α}
    (h : ∀ s f line, give s = some f → f (line + n) = move (f line)) (line : Int)
    (found : List Segment) :
    onLines give (line + n) found = (onLines give line found).map move := by
  induction found generalizing line with
  | nil => rfl
  | cons s found ih =>
    have hline : line + n + newlines s.text = line + newlines s.text + n := by omega
    rw [onLines_cons, onLines_cons, List.map_append, hline, ih]
    cases hs : give s with
    | none => rfl
    | some f => simp [h s f _ hs]

theorem tokensOf_add (line n : Int) (found : List Segment) :
    tokensOf (line + n) found = (tokensOf line found).map (Token.moved (· + n)) := by
  have hadd := @onLines_add _ (fun s => s.token?.map fun t line => { t with line }) n
    (Token.moved (· + n)) (by
      intro s f line hs
      obtain ⟨t, -, rfl⟩ := Option.map_eq_some_iff.mp hs
      rfl) line found
  have hend : line + n + newlines (found.flatMap Segment.text) =
      line + newlines (found.flatMap Segment.text) + n := by omega
  rw [tokensOf, tokensOf, hadd, hend, List.map_append]
  rfl

/-- The error on another line, which depends on its own. -/
def LexicalError.moved (f : Int → Int) (e : LexicalError) : LexicalError :=
  { e with line := f e.line }

theorem errorsOf_add (line n : Int) (found : List Segment) :
    errorsOf (line + n) found = (errorsOf line found).map (LexicalError.moved (· + n)) := by
  refine onLines_add (fun s f line hs => ?_) line found
  obtain ⟨what, -, rfl⟩ := Option.map_eq_some_iff.mp hs
  rfl

theorem tokensOf_append (line : Int) (found others : List Segment) :
    tokensOf line (found ++ others) =
      (tokensOf line found).dropLast ++
        tokensOf (line + newlines (found.flatMap Segment.text)) others := by
  simp only [tokensOf, List.dropLast_concat]
  rw [onLines_append, List.append_assoc, List.flatMap_append, newlines_append, Int.natCast_add,
    ← Int.add_assoc]

theorem errorsOf_append (line : Int) (found others : List Segment) :
    errorsOf line (found ++ others) =
      errorsOf line found ++ errorsOf (line + newlines (found.flatMap Segment.text)) others :=
  onLines_append _ line found others

/-- What follows a text and a newline starts behind the lines of the text. -/
theorem line_behind (a : List Char) :
    (1 : Int) + newlines ((segments a).flatMap Segment.text) + newlines ['\n'] =
      1 + (1 + newlines a) := by
  have hone : newlines ['\n'] = 1 := rfl
  rw [List.flatMap_def, flatten_segments, hone]
  omega

section
variable {a : String} (ha : ∀ e ∈ (scan a).errors, e.problem ≠ .unterminatedString) (b : String)
include ha

/-- A text that leaves no string open keeps its segments in front of another one on the next line,
which keeps its own. -/
theorem segments_append_line :
    segments (a ++ "\n" ++ b).toList =
      segments a.toList ++ ⟨['\n'], .layout⟩ :: segments b.toList := by
  have hclosed : ∀ s ∈ segments a.toList, s.problem? ≠ some .unterminatedString := by
    intro s hs hproblem
    obtain ⟨e, he, hwhat⟩ := mem_problems hs hproblem 1
    exact ha e (scan_errors a ▸ he) hwhat
  have hfalls : FallsInto a.toList (segments a.toList) := fallsInto_iff.mpr rfl
  have htext : (a ++ "\n" ++ b).toList = a.toList ++ '\n' :: b.toList := by
    simp [String.toList_append]
  rw [htext]
  exact (fallsInto_iff.mp (hfalls.before_newline hclosed (fallsInto_iff.mpr rfl))).symm

/-- The tokens of the second text are those of the text by itself, on the lines behind the first. -/
theorem scan_tokens_append_line :
    (scan (a ++ "\n" ++ b)).tokens =
      (scan a).tokens.dropLast ++
        (scan b).tokens.map (Token.moved (· + (1 + newlines a.toList))) := by
  rw [scan_tokens, scan_tokens, scan_tokens, segments_append_line ha, tokensOf_append,
    tokensOf_cons, line_behind, tokensOf_add]
  rfl

theorem scan_errors_append_line :
    (scan (a ++ "\n" ++ b)).errors =
      (scan a).errors ++
        (scan b).errors.map (LexicalError.moved (· + (1 + newlines a.toList))) := by
  rw [scan_errors, scan_errors, scan_errors, segments_append_line ha, errorsOf_append,
    errorsOf_cons, line_behind, errorsOf_add]
  rfl

end

/-- Reading distributes over lines. When a text leaves no string open, whatever else is wrong with
it, then that text and another one on the next line have the tokens of both, the end mark of the
first left out, and the errors of both. Those of the second stand as many lines further on as the
first has, with the newline between them. -/
theorem scan_line_by_line (a b : String)
    (ha : ∀ e ∈ (scan a).errors, e.problem ≠ .unterminatedString) :
    (scan a).tokens = (scan a).tokens.dropLast ++ [.ending (1 + newlines a.toList)] ∧
      (scan (a ++ "\n" ++ b)).tokens =
        (scan a).tokens.dropLast ++
          (scan b).tokens.map (Token.moved (· + (1 + newlines a.toList))) ∧
      (scan (a ++ "\n" ++ b)).errors =
        (scan a).errors ++
          (scan b).errors.map (LexicalError.moved (· + (1 + newlines a.toList))) := by
  refine ⟨?_, scan_tokens_append_line ha b, scan_errors_append_line ha b⟩
  rw [scan_tokens, tokensOf, List.flatMap_def, flatten_segments, List.dropLast_concat]

/-- A comment with a double quote in it and a character that is out of place do not touch the next
line. -/
theorem scan_line_by_line_comment :
    let a := "x @\n/ // \"y"
    let b := "= @\n\"z"
    (∀ e ∈ (scan a).errors, e.problem ≠ .unterminatedString) ∧
      (scan (a ++ "\n" ++ b)).tokens =
        [⟨.identifier, "x", .nil, 1⟩, ⟨.slash, "/", .nil, 2⟩, ⟨.equal, "=", .nil, 3⟩, .ending 4] ∧
      (scan (a ++ "\n" ++ b)).errors =
        [⟨1, .unexpectedCharacter⟩, ⟨3, .unexpectedCharacter⟩, ⟨4, .unterminatedString⟩] := by
  intro a b
  have ha : ∀ e ∈ (scan a).errors, e.problem ≠ .unterminatedString := by decide +kernel
  obtain ⟨-, htokens, herrors⟩ := scan_line_by_line a b ha
  exact ⟨ha, htokens.trans (by decide +kernel), herrors.trans (by decide +kernel)⟩

end ExprScript
