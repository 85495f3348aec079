import ExprScript.Proofs.JoinedTexts

namespace ExprScript

/-- A lexeme that is not layout itself is not longer than it is in front of a blank or the end. -/
theorem Lexeme.leads_blank {text rest : List Char} {m : Meaning} (h : Lexeme text m)
    (hm : m ≠ .layout) (hrest : ∀ c ∈ rest.head?, isLayout c = true) :
    Leads (text ++ rest) ⟨text, m⟩ := by
  refine .lexeme h (List.prefix_append _ _) fun other n hother hahead => ?_
  cases rest with
  | nil => simpa using hahead.length_le
  | cons c rest =>
    by_contra hlong
    have hover : text ++ [c] <+: other := by
      refine List.prefix_of_prefix_length_le ⟨rest, by simp⟩ hahead ?_
      simpa using hlong
    obtain ⟨d, ds, rfl⟩ := List.exists_cons_of_ne_nil h.ne_nil
    rcases hother.of_layout_mem (hrest c rfl) (hover.subset (by simp)) with rfl |
      ⟨body, hbody, rfl⟩ | ⟨body, hbody, rfl⟩
    · simp at hlong
    · -- The lexeme would be a slash in front of a slash, or a comment itself.
      obtain ⟨rfl, hbehind⟩ := List.cons_prefix_cons.mp hover
      cases ds with
      | nil =>
        obtain ⟨rfl, -⟩ := List.cons_prefix_cons.mp hbehind
        cases hrest _ rfl
      | cons d ds =>
        obtain ⟨rfl, hinside⟩ := List.cons_prefix_cons.mp hbehind
        have hline : '\n' ∉ ds := fun hmem =>
          hbody (hinside.subset (List.mem_append_left _ hmem))
        exact hm (h.meaning_unique (.comment hline))
    · have hfront : d :: ds <+: '\x22' :: body := by
        refine List.prefix_of_prefix_length_le ((List.prefix_append _ _).trans hover)
          ⟨['\x22'], rfl⟩ ?_
        simpa using hlong
      exact h.not_open hfront ⟨body, hbody, rfl⟩

/-- The segment stands for a token, and its text is all of a lexeme. -/
def Segment.IsToken (s : Segment) : Prop := s.token?.isSome = true ∧ Lexeme s.text s.meaning

theorem Leads.isToken {cs : List Char} {s : Segment} (h : Leads cs s)
    (htoken : s.token?.isSome = true) : s.IsToken := by
  cases h with
  | lexeme h _ _ => exact ⟨htoken, h⟩
  | stray h _ => cases h <;> cases htoken

namespace Segment.IsToken

variable {s : Segment} (h : s.IsToken)
include h

theorem leads {rest : List Char} (hrest : ∀ c ∈ rest.head?, isLayout c = true) :
    Leads (s.text ++ rest) s := by
  refine h.2.leads_blank (fun hlayout => ?_) hrest
  have htoken := h.1
  simp [token?, hlayout] at htoken

theorem isSound : s.IsSound := by
  have htoken := h.1
  cases hm : s.meaning <;> simp_all [token?, IsSound]

end Segment.IsToken

/-- The space between two lexemes. -/
def Segment.space : Segment := ⟨[' '], .layout⟩

/-- The texts of tokens with single spaces between them fall into those tokens and spaces. -/
theorem FallsInto.spaced {words : List Segment} (h : ∀ s ∈ words, s.IsToken) :
    FallsInto ([' '].intercalate (words.map Segment.text)) (words.intersperse .space) := by
  induction words with
  | nil => exact .nil
  | cons s words ih =>
    obtain ⟨hs, hwords⟩ := List.forall_mem_cons.mp h
    cases words with
    | nil =>
      have hlast : Leads (s.text ++ []) s := hs.leads (by simp)
      have hall : FallsInto (s.text ++ []) [s] := .cons hlast .nil
      simpa using hall
    | cons t words =>
      have hspace : Leads (Segment.space.text ++ [' '].intercalate ((t :: words).map Segment.text))
        .space := first_leads ' ' _
      have hrest := FallsInto.cons hspace (ih hwords)
      have hall := FallsInto.cons (hs.leads (by simp [Segment.space, isLayout])) hrest
      simpa [Segment.space] using hall

/-- The lexemes of the tokens that segments stand for are their texts. -/
theorem map_lexeme_words {words : List Segment} (h : ∀ s ∈ words, s.IsToken) :
    (words.filterMap Segment.token?).map (·.lexeme.toList) = words.map Segment.text := by
  induction words with
  | nil => rfl
  | cons s words ih =>
    obtain ⟨hs, hwords⟩ := List.forall_mem_cons.mp h
    obtain ⟨t, ht⟩ := Option.isSome_iff_exists.mp hs.1
    rw [List.filterMap_cons, ht, List.map_cons, List.map_cons, ih hwords,
      Segment.lexeme_of_token? ht, String.toList_ofList]

/-- The spaces add no token and nothing that is wrong. -/
theorem filterMap_token?_spaced (words : List Segment) :
    (words.intersperse .space).filterMap Segment.token? = words.filterMap Segment.token? := by
  induction words with
  | nil => rfl
  | cons s words ih =>
    cases words with
    | nil => rfl
    | cons t words =>
      have hspace : Segment.space.token? = none := rfl
      rw [List.intersperse_cons_cons, List.filterMap_cons, List.filterMap_cons, hspace,
        List.filterMap_cons, ih]

theorem isSound_spaced {words : List Segment} (h : ∀ s ∈ words, s.IsToken) :
    ∀ s ∈ words.intersperse .space, s.IsSound := by
  induction words with
  | nil => simp
  | cons s words ih =>
    obtain ⟨hs, hwords⟩ := List.forall_mem_cons.mp h
    cases words with
    | nil => simpa using hs.isSound
    | cons t words =>
      rw [List.intersperse_cons_cons]
      simp only [List.forall_mem_cons]
      exact ⟨hs.isSound, trivial, ih hwords⟩

namespace Scan

/-- The lexemes of the tokens in front of the end mark, with single spaces between them. -/
def respaced (s : Scan) : String := " ".intercalate (s.tokens.dropLast.map Token.lexeme)

/-- The lines of the tokens do not matter. -/
theorem respaced_eq (s : Scan) :
    s.respaced = " ".intercalate ((s.tokens.map Token.unplaced).dropLast.map Token.lexeme) := by
  rw [respaced, ← List.map_dropLast, List.map_map]
  rfl

end Scan

/-- The segments of a text that stand for tokens spell the tokens of the text. -/
theorem exists_words (source : String) :
    ∃ words : List Segment, (∀ s ∈ words, s.IsToken) ∧
      (scan source).respaced.toList = [' '].intercalate (words.map Segment.text) ∧
      (scan source).tokens.map Token.unplaced = words.filterMap Segment.token? ++ [.ending 0] := by
  have hfalls : FallsInto source.toList (segments source.toList) := fallsInto_iff.mpr rfl
  have hwords : ((segments source.toList).filter (·.token?.isSome)).filterMap Segment.token? =
      (segments source.toList).filterMap Segment.token? := by
    rw [List.filterMap_filter]
    congr 1
    funext s
    cases s.token? <;> rfl
  have htoken : ∀ s ∈ (segments source.toList).filter (·.token?.isSome), s.IsToken := by
    intro s hs
    obtain ⟨hmem, hsome⟩ := List.mem_filter.mp hs
    obtain ⟨rest, hleads⟩ := hfalls.exists_leads s hmem
    exact hleads.isToken hsome
  refine ⟨(segments source.toList).filter (·.token?.isSome), htoken, ?_, ?_⟩
  · rw [Scan.respaced_eq, map_unplaced_scan, List.dropLast_concat, String.toList_intercalate,
      List.map_map, ← hwords, ← map_lexeme_words htoken]
    rfl
  · rw [map_unplaced_scan, hwords]

/-- Layout and comments carry no meaning. The lexemes of the tokens of any text, joined by single
spaces, are scanned without an error and give the same tokens up to their lines, the end mark
included. Joining these again gives the same text. -/
theorem scan_respaced (source : String) :
    (scan (scan source).respaced).errors = [] ∧
      (scan (scan source).respaced).tokens.map Token.unplaced =
        (scan source).tokens.map Token.unplaced ∧
      (scan (scan source).respaced).respaced = (scan source).respaced := by
  obtain ⟨words, hwords, htext, htokens⟩ := exists_words source
  have hsegments : segments (scan source).respaced.toList = words.intersperse .space := by
    rw [htext]
    exact (fallsInto_iff.mp (.spaced hwords)).symm
  have hsame : (scan (scan source).respaced).tokens.map Token.unplaced =
      (scan source).tokens.map Token.unplaced := by
    rw [map_unplaced_scan, hsegments, filterMap_token?_spaced, htokens]
  refine ⟨?_, hsame, ?_⟩
  · rw [scan_errors, hsegments]
    exact errorsOf_of_isSound (isSound_spaced hwords) 1
  · rw [Scan.respaced_eq, hsame, ← Scan.respaced_eq]

example : (scan "a@//x\n!=\"b // c\"").respaced = "a != \"b // c\"" := by decide +kernel

end ExprScript
