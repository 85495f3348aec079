import ExprScript.Proofs.LongestLexemes

namespace ExprScript

/-- Lines that rise still do so with one more behind them that is not below any. -/
theorem rising_concat {α : Type} {line : α → Int} {found : List α} {a : α}
    (h : found.Pairwise fun b c => line b ≤ line c) (ha : ∀ b ∈ found, line b ≤ line a) :
    (found ++ [a]).Pairwise fun b c => line b ≤ line c := by
  rw [List.pairwise_append]
  refine ⟨h, List.pairwise_singleton _ _, fun b hb c hc => ?_⟩
  rw [List.mem_singleton.mp hc]
  exact ha b hb

theorem eq_some_of_append_singleton {α : Type} {before : List α} {a : α} {new : Option α}
    (h : before ++ [a] = before ++ new.toList) : new = some a :=
  Option.toList_eq_singleton_iff.mp (List.append_cancel_left h).symm

/-- The line of the place behind a number of characters of a source. -/
def lineBehind (source : String) (count : Nat) : Int := 1 + newlines (source.toList.take count)

theorem lineBehind_length (source : String) {count : Nat} (h : source.toList.length ≤ count) :
    lineBehind source count = 1 + newlines source.toList := by
  rw [lineBehind, List.take_of_length_le h]

namespace Lexer

variable {source : String} {l m : Lexer} {s : Segment}

/-- Text is left, and the lexer reads the next segment of it without a fault. -/
def Steps (l m : Lexer) : Prop := l.isAtEnd = false ∧ next l = .ok () m

/-- The reading of a source comes by here, between two of its steps or before or behind them all. -/
def Reached (source : String) : Lexer → Prop := Relation.ReflTransGen Steps (ofString source)

theorem Steps.exists_passes (h : l.Steps m) : ∃ s, Leads l.rest s ∧ l.Passes s m := by
  obtain ⟨s, k, hnext, hleads, hpasses⟩ := exists_next h.1
  cases h.2.symm.trans hnext
  exact ⟨s, hleads, hpasses⟩

theorem ReadsTo.reached {k last : Lexer} (h : k.ReadsTo last) (hk : Reached source k) :
    Reached source last ∧ last.isAtEnd = true := by
  induction h with
  | stop hend => exact ⟨hk, hend⟩
  | next hleft hnext _ ih => exact ih (hk.tail ⟨hleft, hnext⟩)

/-- The lexer has the text behind its place in a source in front of it and knows its line. -/
structure Tracks (source : String) (l : Lexer) : Prop where
  rest : l.rest = source.toList.drop l.position
  line : l.line = lineBehind source l.position

theorem tracks_ofString (source : String) : Tracks source (ofString source) := ⟨rfl, rfl⟩

namespace Tracks

variable (h : Tracks source l) (hp : l.Passes s m)
include h hp

/-- The segment that is passed is the text between the two places. -/
theorem text_eq : (source.toList.take m.position).drop l.position = s.text := by
  rw [List.drop_take, ← h.rest, hp.rest, hp.position, Nat.add_sub_cancel_left, List.take_left]

theorem lineBehind_eq : lineBehind source m.position =
    lineBehind source l.position + newlines s.text := by
  have htake : source.toList.take m.position = source.toList.take l.position ++ s.text := by
    rw [hp.position, List.take_add, ← h.rest, hp.rest, List.take_left]
  rw [lineBehind, htake, newlines_append, lineBehind]
  push_cast
  omega

theorem passes : Tracks source m where
  rest := by rw [hp.position, ← List.drop_drop, ← h.rest, hp.rest, List.drop_left]
  line := by rw [h.lineBehind_eq hp, hp.line, h.line]

end Tracks

/-- Between any two steps the line is that of the place in the source. -/
theorem Reached.tracks (h : Reached source l) : Tracks source l := by
  induction h with
  | refl => exact tracks_ofString source
  | tail _ hstep ih =>
    obtain ⟨s, -, hpasses⟩ := hstep.exists_passes
    exact ih.passes hpasses

/-- A reading starts with nothing collected, and each step adds at most one thing, on the line to
which it comes. -/
structure Collects {α : Type} (collected : Lexer → List α) (line : α → Int) : Prop where
  start (source : String) : collected (ofString source) = []
  adds {l m : Lexer} (h : l.Steps m) :
    ∃ new : Option α, collected m = collected l ++ new.toList ∧ ∀ a ∈ new, line a = m.line

theorem collects_tokens : Collects Lexer.tokens Token.line where
  start _ := rfl
  adds h := by
    obtain ⟨s, -, hpasses⟩ := h.exists_passes
    refine ⟨_, hpasses.tokens, fun t ht => ?_⟩
    obtain ⟨u, -, rfl⟩ := Option.map_eq_some_iff.mp ht
    rfl

theorem collects_errors : Collects Lexer.errors LexicalError.line where
  start _ := rfl
  adds h := by
    obtain ⟨s, -, hpasses⟩ := h.exists_passes
    refine ⟨_, hpasses.errors, fun e he => ?_⟩
    obtain ⟨what, -, rfl⟩ := Option.map_eq_some_iff.mp he
    rfl

namespace Collects

variable {α : Type} {collected : Lexer → List α} {line : α → Int} (hc : Collects collected line)
include hc

/-- What a reading has collected was added by one of its steps. -/
theorem exists_step (h : Reached source l) {before after : List α} {a : α}
    (hl : collected l = before ++ a :: after) :
    ∃ k m, Reached source k ∧ k.Steps m ∧ collected k = before ∧ collected m = before ++ [a] := by
  induction h generalizing after with
  | refl => simp [hc.start] at hl
  | @tail k m hk hstep ih =>
    obtain ⟨new, hnew, -⟩ := hc.adds hstep
    cases new with
    | none => exact ih (by simpa [hnew] using hl)
    | some b =>
      rw [hnew, Option.toList_some] at hl
      rcases List.eq_nil_or_concat after with rfl | ⟨others, c, rfl⟩
      · obtain ⟨rfl, hb⟩ := List.append_inj' hl rfl
        obtain rfl := (List.cons.inj hb).1
        exact ⟨k, m, hk, hstep, rfl, hnew⟩
      · have hl : collected k ++ [b] = (before ++ a :: others) ++ [c] := by simpa using hl
        exact ih (List.append_inj' hl rfl).1

/-- The lines of what is collected rise up to the line that the reading has come to. -/
theorem rises (h : Reached source l) :
    (collected l).Pairwise (fun a b => line a ≤ line b) ∧ ∀ a ∈ collected l, line a ≤ l.line := by
  induction h with
  | refl => simp [hc.start]
  | @tail k m hk hstep ih =>
    obtain ⟨hrising, hbelow⟩ := ih
    obtain ⟨new, hnew, hline⟩ := hc.adds hstep
    obtain ⟨s, -, hpasses⟩ := hstep.exists_passes
    have hbelow : ∀ a ∈ collected k, line a ≤ m.line := by
      intro a ha
      have hle := hbelow a ha
      rw [hpasses.line]
      omega
    rw [hnew]
    cases new with
    | none => simpa using ⟨hrising, hbelow⟩
    | some b =>
      have hb := hline b rfl
      refine ⟨rising_concat hrising fun a ha => hb ▸ hbelow a ha, fun a ha => ?_⟩
      rcases List.mem_append.mp ha with ha | ha
      · exact hbelow a ha
      · rw [List.mem_singleton.mp ha, hb]

end Collects

end Lexer

/-- The token is made of the text that a step of the reading of a source passes, on the line on
which that text ends. -/
structure TokenAt (source : String) (l m : Lexer) (t : Token) : Prop where
  lexeme : t.lexeme.toList = (source.toList.take m.position).drop l.position
  line : t.line = lineBehind source m.position

/-- The error is about the text that a step of the reading of a source passes: one character, on its
own line, or a string that is open up to the end, on the last line. -/
inductive ErrorAt (source : String) (l m : Lexer) (e : LexicalError) : Prop where
  | character (hproblem : e.problem = .unexpectedCharacter) (hone : m.position = l.position + 1)
    (hline : e.line = lineBehind source l.position)
  | openString (hproblem : e.problem = .unterminatedString) (hend : m.isAtEnd = true)
    (hline : e.line = 1 + newlines source.toList)

namespace Lexer

variable {source : String} {l m : Lexer} (h : Reached source l) (hstep : l.Steps m)
include h hstep

theorem tokenAt {t : Token} (ht : m.tokens = l.tokens ++ [t]) : TokenAt source l m t := by
  obtain ⟨s, -, hpasses⟩ := hstep.exists_passes
  have hnew := eq_some_of_append_singleton (ht.symm.trans hpasses.tokens)
  obtain ⟨u, hu, rfl⟩ := Option.map_eq_some_iff.mp hnew
  refine ⟨?_, (h.tracks.passes hpasses).line⟩
  rw [h.tracks.text_eq hpasses]
  exact (congrArg String.toList (Segment.lexeme_of_token? hu)).trans String.toList_ofList

theorem errorAt {e : LexicalError} (he : m.errors = l.errors ++ [e]) : ErrorAt source l m e := by
  obtain ⟨s, hleads, hpasses⟩ := hstep.exists_passes
  have hnew := eq_some_of_append_singleton (he.symm.trans hpasses.errors)
  obtain ⟨what, hwhat, rfl⟩ := Option.map_eq_some_iff.mp hnew
  have htracks := h.tracks.passes hpasses
  cases hleads with
  | lexeme hlexeme _ _ =>
    obtain ⟨text, meaning⟩ := s
    cases hlexeme <;> cases hwhat
  | stray hstray hnone =>
    have hrest := hpasses.rest
    have hposition := hpasses.position
    have hline := hpasses.line
    generalize l.rest = ahead at hstray hnone hrest
    cases hstray with
    | openString =>
      obtain rfl := Option.some.inj hwhat
      have hend : m.rest = [] := List.self_eq_append_right.mp hrest
      refine .openString rfl (List.isEmpty_iff.mpr hend) ?_
      have hlast := List.drop_eq_nil_iff.mp (htracks.rest.symm.trans hend)
      exact htracks.line.trans (lineBehind_length source hlast)
    | @character c cs hc =>
      obtain rfl := Option.some.inj hwhat
      -- A newline would be a blank.
      have hplain : c ≠ '\n' := by
        rintro rfl
        exact hnone ['\n'] .layout (.blank (by decide)) ⟨cs, rfl⟩
      have hnone : newlines [c] = 0 := List.count_eq_zero.mpr (by simpa using hplain.symm)
      refine .character rfl hposition ?_
      change m.line = _
      rw [hline, hnone, h.tracks.line]
      rfl

end Lexer

/-- Line numbers are exact. Between any two steps of a reading the line is that of the place in the
source that the reading has come to, and the reading gets to the end, where the end mark has the
last line. Each token was added by a step, and is on the line on which its text ends. So was each
error, which is on the line of its character, or on the last line if a string is open. The lines of
tokens and those of errors never decrease. -/
theorem scan_lines_exact (source : String) :
    (∀ l, Lexer.Reached source l → l.line = lineBehind source l.position) ∧
    (∃ last, Lexer.Reached source last ∧ last.isAtEnd = true ∧
      (scan source).tokens = last.tokens ++ [.ending (1 + newlines source.toList)] ∧
      (scan source).errors = last.errors) ∧
    (∀ before t after, (scan source).tokens = before ++ t :: after → after ≠ [] →
      ∃ l m, Lexer.Reached source l ∧ l.Steps m ∧ l.tokens = before ∧ m.tokens = before ++ [t] ∧
        TokenAt source l m t) ∧
    (∀ before e after, (scan source).errors = before ++ e :: after →
      ∃ l m, Lexer.Reached source l ∧ l.Steps m ∧ l.errors = before ∧ m.errors = before ++ [e] ∧
        ErrorAt source l m e) ∧
    (scan source).tokens.Pairwise (fun s t => s.line ≤ t.line) ∧
    (scan source).errors.Pairwise (fun e f => e.line ≤ f.line) := by
  obtain ⟨last, hreads, -⟩ := (Lexer.ofString source).exists_readsTo
  obtain ⟨hlast, hend⟩ := hreads.reached .refl
  have hline : last.line = 1 + newlines source.toList := by
    have hrest := hlast.tracks.rest.symm.trans (List.isEmpty_iff.mp hend)
    rw [hlast.tracks.line, lineBehind_length source (List.drop_eq_nil_iff.mp hrest)]
  have htokens : (scan source).tokens = last.tokens ++ [.ending last.line] := by
    rw [scan_of_readsTo hreads]
  have herrors : (scan source).errors = last.errors := by rw [scan_of_readsTo hreads]
  refine ⟨fun l hl => hl.tracks.line, ⟨last, hlast, hend, hline ▸ htokens, herrors⟩, ?_, ?_, ?_, ?_⟩
  · intro before t after hsplit hafter
    obtain ⟨others, ending, rfl⟩ := (List.eq_nil_or_concat after).resolve_left hafter
    have hcollected : last.tokens ++ [.ending last.line] = (before ++ t :: others) ++ [ending] := by
      rw [← htokens, hsplit]
      simp
    obtain ⟨l, m, hl, hstep, hbefore, hm⟩ :=
      Lexer.collects_tokens.exists_step hlast (List.append_inj' hcollected rfl).1
    exact ⟨l, m, hl, hstep, hbefore, hm, Lexer.tokenAt hl hstep (hbefore ▸ hm)⟩
  · intro before e after hsplit
    obtain ⟨l, m, hl, hstep, hbefore, hm⟩ :=
      Lexer.collects_errors.exists_step hlast (herrors ▸ hsplit)
    exact ⟨l, m, hl, hstep, hbefore, hm, Lexer.errorAt hl hstep (hbefore ▸ hm)⟩
  · obtain ⟨hrising, hbelow⟩ := Lexer.collects_tokens.rises hlast
    rw [htokens]
    exact rising_concat hrising hbelow
  · rw [herrors]
    exact (Lexer.collects_errors.rises hlast).1

example : scan "\"a\nb\" c\n@ \"d\n" =
    ⟨[⟨.string, "\"a\nb\"", .value (.text "a\nb"), 2⟩, ⟨.identifier, "c", .nil, 2⟩, .ending 4],
      [⟨3, .unexpectedCharacter⟩, ⟨4, .unterminatedString⟩]⟩ := by
  decide +kernel

end ExprScript
