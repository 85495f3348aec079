import ExprScript.Proofs.Recovery

namespace ExprScript

/-- The kept end: reading stops in front of an end mark, and goes on behind a semicolon. -/
def Token.kept (s : Token) : List Token := if s.kind = .eof then [s] else []

open Grammar in
/-- Declarations read one after another, up to an end mark. The first list are the tokens to read
and the last list is what is left. -/
inductive Stretches : List Token → List Stretch → List Token → Prop where
  | done {e : Token} {more : List Token} (he : e.kind = .eof) :
    Stretches (e :: more) [] (e :: more)
  | next {x : Stretch} {xs : List Stretch} {rest last : List Token} (hx : x.Accounted rest)
    (hd : declaration (x.tokens ++ rest) = ⟨.ok x.statement, x.errors, rest⟩)
    (others : Stretches rest xs last) : Stretches (x.tokens ++ rest) (x :: xs) last

namespace Stretches
open Grammar

variable {ts last : List Token} {xs : List Stretch}

theorem ne_nil (h : Stretches ts xs last) : ts ≠ [] := by
  cases h with
  | done he => simp
  | next hx hd others => simp [hx.nonempty]

/-- Reading a whole program is reading its declarations. -/
theorem program_eq (h : Stretches ts xs last) :
    program ts = ⟨.ok (xs.filterMap Stretch.statement), xs.flatMap Stretch.errors, last⟩ := by
  induction h with
  | done he => exact program_of_end he _
  | @next x xs rest last hx hd others ih =>
    obtain ⟨t, us, hus⟩ := List.exists_cons_of_ne_nil hx.nonempty
    have ht : t.kind ≠ .eof := hx.inside t (by simp [hus])
    rw [hus, List.cons_append] at hd ⊢
    rw [program_of_declaration ht hd, ih]
    cases hst : x.statement <;> simp [Except.map, hst]

theorem tokens_eq (h : Stretches ts xs last) : ts = xs.flatMap Stretch.tokens ++ last := by
  induction h with
  | done he => rfl
  | next hx hd others ih => rw [List.flatMap_cons, List.append_assoc, ← ih]

/-- Every stretch is accounted for in front of what comes behind it, and reading goes on from
there. -/
theorem exists_behind (h : Stretches ts xs last) {before after : List Stretch} {x : Stretch}
    (hxs : xs = before ++ x :: after) : ∃ rest, x.Accounted rest ∧ Stretches rest after last := by
  induction h generalizing before with
  | done he => simp at hxs
  | next hx hd others ih =>
    cases before with
    | nil =>
      obtain ⟨rfl, rfl⟩ := List.cons.inj hxs
      exact ⟨_, hx, others⟩
    | cons b before => exact ih (List.cons.inj hxs).2

/-- In front of an end mark no declaration is read. -/
theorem eq_nil_of_head_eof (h : Stretches ts xs last) {t : Token} (hhead : ts.head? = some t)
    (ht : t.kind = .eof) : xs = [] ∧ last = ts := by
  cases h with
  | done he => exact ⟨rfl, rfl⟩
  | next hx hd others =>
    obtain ⟨u, us, hus⟩ := List.exists_cons_of_ne_nil hx.nonempty
    rw [hus] at hhead
    obtain rfl := Option.some.inj hhead
    exact absurd ht (hx.inside _ (by simp [hus]))

/-- The errors stand in the order of the tokens they are at, each behind the one before. -/
theorem errors_sublist {e : Token} {more : List Token} (h : Stretches ts xs (e :: more)) :
    ((xs.flatMap Stretch.errors).map SyntaxError.token).Sublist
      (xs.flatMap Stretch.tokens ++ [e]) := by
  generalize hlast : e :: more = last at h
  induction h with
  | done he => simp
  | @next x xs rest last hx hd others ih =>
    have hothers := ih hlast
    rw [List.flatMap_cons, List.flatMap_cons, List.map_append, List.append_assoc]
    rcases hx.outcome with ⟨s, -, herrors, -⟩ | ⟨err, -, herrors, hat⟩
    · rw [herrors, List.map_nil, List.nil_append]
      exact hothers.trans (List.sublist_append_right _ _)
    · rw [herrors]
      rcases hat with hmem | ⟨hk, hhead⟩
      · exact (List.singleton_sublist.mpr hmem).append hothers
      · -- An error at the end mark is the last one: the declarations stop there.
        obtain ⟨rfl, rfl⟩ := others.eq_nil_of_head_eof hhead hk
        rw [← hlast] at hhead
        obtain rfl := Option.some.inj hhead
        exact List.sublist_append_right _ _

end Stretches

namespace Grammar

/-- There is a first end in every list that closes with one. -/
theorem exists_first_end {s : Token} (hs : s.Ends) (ts : List Token) :
    ∃ front c back, ts ++ [s] = front ++ c :: back ∧ (∀ t ∈ front, ¬ t.Ends) ∧ c.Ends := by
  induction ts with
  | nil => exact ⟨[], s, [], rfl, by simp, hs⟩
  | cons t ts ih =>
    by_cases ht : t.Ends
    · exact ⟨[], t, ts ++ [s], rfl, by simp, ht⟩
    · obtain ⟨front, c, back, hsplit, hfront, hc⟩ := ih
      exact ⟨t :: front, c, back, by simp [hsplit], List.forall_mem_cons.mpr ⟨ht, hfront⟩, hc⟩

/-- One declaration in front of an end takes tokens up to that end at most, and does not depend on
what comes behind it. -/
theorem declaration_within {s : Token} (hs : s.Ends) {ts : List Token}
    (hts : ∀ t ∈ ts, t.kind ≠ .eof) (hc : ∀ t ∈ ts, t.Carries) (hstart : s.kind = .eof → ts ≠ []) :
    ∃ (x : Stretch) (left : List Token), ts ++ [s] = x.tokens ++ left ∧
      (s.kind = .eof → left ≠ []) ∧ ∀ more, (s.kind = .semicolon → more ≠ []) →
        x.Accounted (left ++ more) ∧
          declaration (ts ++ s :: more) = ⟨.ok x.statement, x.errors, left ++ more⟩ := by
  obtain ⟨front, c, back, hsplit, hfront, hend⟩ := exists_first_end hs ts
  rcases List.eq_nil_or_concat back with rfl | ⟨back, d, rfl⟩
  · -- There is no end before the last token.
    obtain ⟨rfl, hcs⟩ := List.append_inj' hsplit rfl
    obtain rfl := List.singleton_inj.mp hcs
    exact declaration_accounted hfront hend hc hstart
  · have hlast : ts ++ [s] = (front ++ c :: back) ++ [d] := by simpa using hsplit
    obtain ⟨rfl, hds⟩ := List.append_inj' hlast rfl
    obtain rfl := List.singleton_inj.mp hds
    have hsemi : c.kind = .semicolon := hend.resolve_right (hts c (by simp))
    obtain ⟨x, left, htaken, -, hx⟩ := declaration_accounted hfront hend
      (fun t ht => hc t (by simp [ht])) fun hk => absurd hk (hts c (by simp))
    refine ⟨x, left ++ (back ++ [s]), ?_, by simp, fun more _ => ?_⟩
    · rw [← List.append_assoc, ← htaken]
      simp
    · obtain ⟨hacc, hd⟩ := hx (back ++ s :: more) (by simp)
      constructor
      · simpa using hacc
      · simpa using hd

/-- Reading up to an end goes the same way whatever comes behind that end, and reading on from there
goes as it would on its own. -/
theorem exists_stretches {s : Token} (hs : s.Ends) {ts : List Token}
    (hts : ∀ t ∈ ts, t.kind ≠ .eof) (hc : ∀ t ∈ ts, t.Carries) :
    ∃ xs : List Stretch, ∀ more ⦃ys last⦄, Stretches (s.kept ++ more) ys last →
      Stretches (ts ++ s :: more) (xs ++ ys) last := by
  -- A declaration takes at least one token, so the induction is on how many there are.
  induction hn : ts.length using Nat.strongRecOn generalizing ts with
  | _ n ih =>
    subst hn
    by_cases hempty : ts = [] ∧ s.kind = .eof
    · obtain ⟨rfl, hk⟩ := hempty
      refine ⟨[], fun more ys last h => ?_⟩
      simpa [Token.kept, hk] using h
    · obtain ⟨x, left, hsplit, hleft, hx⟩ := declaration_within hs hts hc fun hk hnil =>
        hempty ⟨hnil, hk⟩
      have hsuffix : left <:+ ts ++ [s] := ⟨x.tokens, hsplit.symm⟩
      have hwhole (more : List Token) : ts ++ s :: more = x.tokens ++ (left ++ more) := by
        rw [← List.append_assoc, ← hsplit]
        simp
      rcases List.suffix_concat_iff.mp hsuffix with rfl | ⟨us, rfl, hsub⟩
      · refine ⟨[x], fun more ys last h => ?_⟩
        rw [Token.kept, if_neg fun hk => hleft hk rfl, List.nil_append] at h
        obtain ⟨hacc, hd⟩ := hx more fun _ => h.ne_nil
        rw [hwhole more] at hd ⊢
        exact .next hacc hd h
      · have hlt : us.length < ts.length := by
          have hpos := List.length_pos_iff.mpr (hx [s] (by simp)).1.nonempty
          have hlen := congrArg List.length hsplit
          simp only [List.length_append, List.length_singleton] at hlen
          omega
        obtain ⟨xs, hxs⟩ := ih us.length hlt (fun t ht => hts t (hsub.subset ht))
          (fun t ht => hc t (hsub.subset ht)) rfl
        refine ⟨x :: xs, fun more ys last h => ?_⟩
        obtain ⟨hacc, hd⟩ := hx more fun hk => by
          rintro rfl
          exact h.ne_nil (by simp [Token.kept, hk])
        have hothers := hxs more h
        rw [hwhole more] at hd ⊢
        rw [List.append_assoc] at hacc hd ⊢
        exact .next hacc hd hothers

theorem stretches_to_end {ts : List Token} {e : Token} (hts : ∀ t ∈ ts, t.kind ≠ .eof)
    (hc : ∀ t ∈ ts, t.Carries) (he : e.kind = .eof) :
    ∃ xs, ∀ more, Stretches (ts ++ e :: more) xs (e :: more) := by
  obtain ⟨xs, hxs⟩ := exists_stretches (.inr he) hts hc
  refine ⟨xs, fun more => ?_⟩
  have hall := hxs more (by simpa [Token.kept, he] using Stretches.done he)
  simpa using hall

/-- A program is read up to the first end mark whatever its tokens are, one declaration after
another. The declarations share the tokens out among themselves. Each gives a statement that its
tokens give on their own, or one error at a token of its own, and only the last one may find its
error at the end mark. The errors stand in the order of the tokens. -/
theorem program_accounted {ts : List Token} {e : Token} (hts : ∀ t ∈ ts, t.kind ≠ .eof)
    (hc : ∀ t ∈ ts, t.Carries) (he : e.kind = .eof) (more : List Token) :
    ∃ xs : List Stretch, Stretches (ts ++ e :: more) xs (e :: more) ∧
      program (ts ++ e :: more) =
        ⟨.ok (xs.filterMap Stretch.statement), xs.flatMap Stretch.errors, e :: more⟩ ∧
      xs.flatMap Stretch.tokens = ts ∧
      ((xs.flatMap Stretch.errors).map SyntaxError.token).Sublist (ts ++ [e]) ∧
      ∀ before x after, xs = before ++ x :: after →
        x.tokens ≠ [] ∧ (∀ t ∈ x.tokens.dropLast, t.kind ≠ .semicolon) ∧
        ((∃ s, x.statement = some s ∧ x.errors = [] ∧
            ∀ d : Token, d.kind = .eof → program (x.tokens ++ [d]) = ⟨.ok [s], [], [d]⟩) ∨
          (∃ err, x.statement = none ∧ x.errors = [err] ∧
            (err.token ∈ x.tokens ∨ after = [] ∧ err.token = e))) := by
  obtain ⟨xs, hall⟩ := stretches_to_end hts hc he
  have h := hall more
  have htokens : xs.flatMap Stretch.tokens = ts := (List.append_cancel_right h.tokens_eq).symm
  refine ⟨xs, h, h.program_eq, htokens, htokens ▸ h.errors_sublist, fun before x after hxs => ?_⟩
  obtain ⟨rest, hx, others⟩ := h.exists_behind hxs
  refine ⟨hx.nonempty, hx.semicolon_last, ?_⟩
  rcases hx.outcome with ⟨s, hs, herrors, hspelled⟩ | ⟨err, hs, herrors, hat⟩
  · refine .inl ⟨s, hs, herrors, fun d hd => ?_⟩
    have hone : Spelled [s] x.tokens := by
      have hcons := Spelled.cons hspelled .nil
      rwa [List.append_nil] at hcons
    exact program_run hone hd []
  · refine .inr ⟨err, hs, herrors, ?_⟩
    rcases hat with hmem | ⟨hk, hhead⟩
    · exact .inl hmem
    · obtain ⟨hafter, rfl⟩ := others.eq_nil_of_head_eof hhead hk
      exact .inr ⟨hafter, (Option.some.inj hhead).symm⟩

theorem program_accounted_print_nothing :
    ∃ xs : List Stretch,
      program [⟨.printWord, "print", .nil, 1⟩, ⟨.semicolon, ";", .nil, 1⟩, .ending 1] =
        ⟨.ok (xs.filterMap Stretch.statement), xs.flatMap Stretch.errors, [.ending 1]⟩ ∧
      xs.flatMap Stretch.tokens =
        [⟨.printWord, "print", .nil, 1⟩, ⟨.semicolon, ";", .nil, 1⟩] := by
  obtain ⟨xs, -, hprogram, htokens, -⟩ := @program_accounted
    [⟨.printWord, "print", .nil, 1⟩, ⟨.semicolon, ";", .nil, 1⟩] (.ending 1)
    (by decide) (by simp [Token.Carries]) rfl []
  exact ⟨xs, hprogram, htokens⟩

/-- What is wrong in front of a semicolon does not matter behind it. The two sides are read as they
would be on their own. -/
theorem program_append_semicolon {ts us : List Token} {s d e : Token}
    (hts : ∀ t ∈ ts, t.kind ≠ .eof) (htc : ∀ t ∈ ts, t.Carries) (hs : s.kind = .semicolon)
    (hus : ∀ t ∈ us, t.kind ≠ .eof) (huc : ∀ t ∈ us, t.Carries) (hd : d.kind = .eof)
    (he : e.kind = .eof) :
    ∃ first second firstErrors secondErrors,
      program (ts ++ [s, d]) = ⟨.ok first, firstErrors, [d]⟩ ∧
      program (us ++ [e]) = ⟨.ok second, secondErrors, [e]⟩ ∧
      program (ts ++ s :: (us ++ [e])) =
        ⟨.ok (first ++ second), firstErrors ++ secondErrors, [e]⟩ := by
  obtain ⟨xs, hxs⟩ := exists_stretches (.inl hs) hts htc
  obtain ⟨ys, hys⟩ := stretches_to_end hus huc he
  have hkept : s.kept = [] := by simp [Token.kept, hs]
  have hfirst := hxs [d] (by simpa [hkept] using Stretches.done hd)
  have hsecond := hys []
  have hboth := hxs (us ++ [e]) (by simpa [hkept] using hsecond)
  refine ⟨_, _, _, _, hfirst.program_eq, hsecond.program_eq, ?_⟩
  rw [hboth.program_eq]
  simp

theorem program_append_semicolon_print_nothing :
    ∃ first second firstErrors secondErrors,
      program [⟨.printWord, "print", .nil, 1⟩, ⟨.semicolon, ";", .nil, 1⟩, .ending 1] =
        ⟨.ok first, firstErrors, [.ending 1]⟩ ∧
      program [⟨.nilWord, "nil", .nil, 1⟩, ⟨.semicolon, ";", .nil, 1⟩, .ending 1] =
        ⟨.ok second, secondErrors, [.ending 1]⟩ ∧
      program [⟨.printWord, "print", .nil, 1⟩, ⟨.semicolon, ";", .nil, 1⟩,
          ⟨.nilWord, "nil", .nil, 1⟩, ⟨.semicolon, ";", .nil, 1⟩, .ending 1] =
        ⟨.ok (first ++ second), firstErrors ++ secondErrors, [.ending 1]⟩ :=
  @program_append_semicolon [⟨.printWord, "print", .nil, 1⟩]
    [⟨.nilWord, "nil", .nil, 1⟩, ⟨.semicolon, ";", .nil, 1⟩] ⟨.semicolon, ";", .nil, 1⟩ (.ending 1)
    (.ending 1) (by decide) (by simp [Token.Carries]) rfl (by decide) (by simp [Token.Carries]) rfl
    rfl

end Grammar

end ExprScript
