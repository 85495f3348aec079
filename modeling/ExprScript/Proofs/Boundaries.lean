import ExprScript.Grammar.Cursor
import Mathlib.Order.Bounds.Basic

namespace ExprScript

namespace Grammar

/-- The words in front of which a statement may start, those of statements to come among them. -/
def statementWords : List Kind :=
  [.classWord, .funWord, .varWord, .forWord, .ifWord, .whileWord, .printWord, .returnWord]

theorem startsStatement_iff {k : Kind} : startsStatement k = true ↔ k ∈ statementWords := by
  cases k <;> decide

/-- The place in front of the token of the index is a boundary: that token is an end mark or a word
that starts a statement, or the one before it is a semicolon. -/
def IsBoundary (ts : List Token) (i : Nat) : Prop :=
  (∃ t, ts[i]? = some t ∧ (t.kind = .eof ∨ t.kind ∈ statementWords)) ∨
    ∃ t, ts[i - 1]? = some t ∧ t.kind = .semicolon

/-- Tokens in front move the boundaries behind the first token and change none of them. -/
theorem isBoundary_append (front ts : List Token) {i : Nat} (hi : 0 < i) :
    IsBoundary (front ++ ts) (front.length + i) ↔ IsBoundary ts i := by
  have hat : (front ++ ts)[front.length + i]? = ts[i]? := by
    rw [List.getElem?_append_right (Nat.le_add_right _ _), Nat.add_sub_cancel_left]
  have hbefore : (front ++ ts)[front.length + i - 1]? = ts[i - 1]? := by
    rw [List.getElem?_append_right (by omega)]
    congr 1
    omega
  rw [IsBoundary, IsBoundary, hat, hbefore]

theorem isBoundary_one {previous t : Token} {ts : List Token} :
    IsBoundary (previous :: t :: ts) 1 ↔
      t.kind = .eof ∨ t.kind ∈ statementWords ∨ previous.kind = .semicolon := by
  simp only [IsBoundary, List.getElem?_cons_succ, List.getElem?_cons_zero, Nat.sub_self,
    Option.some.injEq, exists_eq_left', or_assoc]

/-- The first boundary behind the first token. -/
def FirstBoundary (ts : List Token) (i : Nat) : Prop := IsLeast {j | 0 < j ∧ IsBoundary ts j} i

theorem FirstBoundary.cons {t : Token} {ts : List Token} {i : Nat} (h : FirstBoundary ts i)
    (hno : ¬ IsBoundary (t :: ts) 1) : FirstBoundary (t :: ts) (i + 1) := by
  have hshift {j : Nat} (hj : 0 < j) : IsBoundary (t :: ts) (j + 1) ↔ IsBoundary ts j := by
    rw [Nat.add_comm j 1]
    exact isBoundary_append [t] ts hj
  obtain ⟨⟨hpos, hboundary⟩, hleast⟩ := h
  refine ⟨⟨Nat.succ_pos _, (hshift hpos).mpr hboundary⟩, ?_⟩
  rintro j ⟨hj, hjboundary⟩
  obtain ⟨j, rfl⟩ := Nat.exists_eq_add_of_le' hj
  cases j with
  | zero => exact absurd hjboundary hno
  | succ j =>
    rw [hshift (Nat.succ_pos j)] at hjboundary
    exact Nat.succ_le_succ (hleast ⟨Nat.succ_pos j, hjboundary⟩)

/-- Up to the first semicolon there is no boundary, unless at an end mark or a word that starts a
statement. The first token itself is not looked at for these. -/
theorem firstBoundary_behind {u : Token} (hu : u.kind = .semicolon) (rest : List Token)
    {front : List Token} (hfront : ∀ t ∈ front, t.kind ≠ .semicolon)
    (htail : ∀ t ∈ front.tail, t.kind ≠ .eof ∧ t.kind ∉ statementWords) :
    FirstBoundary (front ++ u :: rest) (front.length + 1) := by
  induction front with
  | nil => exact ⟨⟨Nat.one_pos, .inr ⟨u, rfl, hu⟩⟩, fun j hj => hj.1⟩
  | cons t front ih =>
    obtain ⟨ht, hfront⟩ := List.forall_mem_cons.mp hfront
    have hothers := ih hfront fun v hv => htail v (List.mem_of_mem_tail hv)
    refine hothers.cons ?_
    cases front with
    | nil =>
      rw [List.nil_append, isBoundary_one, hu]
      simp [ht, statementWords]
    | cons v front =>
      obtain ⟨hend, hword⟩ := htail v (by simp)
      rw [List.cons_append, isBoundary_one]
      simp [hend, hword, ht]

/-- Seeking stops at the first boundary. The induction is on the tokens that are left: one that is
dropped becomes the previous token of the others. -/
theorem exists_seekBoundary (previous : Token) {ts : List Token} (h : ∃ t ∈ ts, t.kind = .eof) :
    ∃ i, FirstBoundary (previous :: ts) i ∧ i ≤ ts.length ∧
      seekBoundary previous ts = ⟨.ok (), (previous :: ts).drop i⟩ := by
  induction ts generalizing previous with
  | nil => simp at h
  | cons t ts ih =>
    have hone : t.kind = .eof ∨ previous.kind = .semicolon ∨ startsStatement t.kind = true ↔
        IsBoundary (previous :: t :: ts) 1 := by
      rw [isBoundary_one, startsStatement_iff, or_comm (a := previous.kind = .semicolon)]
    rw [seekBoundary]
    by_cases hstop : t.kind = .eof ∨ previous.kind = .semicolon ∨ startsStatement t.kind = true
    · rw [if_pos hstop]
      exact ⟨1, ⟨⟨Nat.one_pos, hone.mp hstop⟩, fun j hj => hj.1⟩, by simp, rfl⟩
    · have hend : ∃ u ∈ ts, u.kind = .eof := by
        obtain ⟨u, hu, hk⟩ := h
        rcases List.mem_cons.mp hu with rfl | hu
        · exact absurd (.inl hk) hstop
        · exact ⟨u, hu, hk⟩
      obtain ⟨i, hfirst, hle, hseek⟩ := ih t hend
      rw [if_neg hstop, hseek]
      exact ⟨i + 1, hfirst.cons fun hb => hstop (hone.mpr hb), Nat.succ_le_succ hle, rfl⟩

/-- Recovery in front of a token that is not the end drops tokens up to the first boundary behind
that token. -/
theorem exists_synchronize {t : Token} {ts : List Token} (ht : t.kind ≠ .eof)
    (h : ∃ u ∈ ts, u.kind = .eof) :
    ∃ i, FirstBoundary (t :: ts) i ∧ i ≤ ts.length ∧
      synchronize (t :: ts) = ⟨.ok (), (t :: ts).drop i⟩ := by
  rw [synchronize, if_neg ht]
  exact exists_seekBoundary t h

end Grammar

namespace Cursor
open Grammar

variable {c : Cursor}

theorem moveTo_ahead (c : Cursor) : c.moveTo c.ahead = c := by
  simp [moveTo]

theorem position_moveTo_drop {i : Nat} (h : i ≤ c.ahead.length) :
    (c.moveTo (c.ahead.drop i)).position = c.position + i := by
  simp only [position, moveTo, List.length_append, List.length_reverse, List.length_take,
    List.length_drop]
  omega

/-- The first boundary among the tokens ahead is the first one behind the next of all tokens. -/
theorem isLeast_of_firstBoundary {i : Nat} (h : FirstBoundary c.ahead i) :
    IsLeast {j | c.position < j ∧ IsBoundary c.tokens j} (c.position + i) := by
  have hshift {j : Nat} (hj : 0 < j) :
      IsBoundary c.tokens (c.position + j) ↔ IsBoundary c.ahead j := by
    rw [position, ← List.length_reverse]
    exact isBoundary_append _ _ hj
  obtain ⟨⟨hpos, hboundary⟩, hleast⟩ := h
  refine ⟨⟨Nat.lt_add_of_pos_right hpos, (hshift hpos).mpr hboundary⟩, ?_⟩
  rintro j ⟨hj, hjboundary⟩
  obtain ⟨k, rfl⟩ := Nat.exists_eq_add_of_le (Nat.le_of_lt hj)
  have hk : 0 < k := Nat.pos_of_lt_add_right hj
  exact Nat.add_le_add_left (hleast ⟨hk, (hshift hk).mp hjboundary⟩) _

/-- Synchronizing a cursor that has an end mark ahead moves it on to the first boundary behind the
next token, and leaves it where it is if that token is the end mark. It always succeeds, and it
changes neither the tokens nor the recorded errors. -/
theorem synchronize_first_boundary (h : ∃ t ∈ c.ahead, t.kind = .eof) :
    ∃ d : Cursor, c.synchronize = (.ok (), d) ∧ d.tokens = c.tokens ∧ d.errors = c.errors ∧
      (c.isAtEnd = .ok true → d = c) ∧
      (c.isAtEnd = .ok false →
        IsLeast {j | c.position < j ∧ IsBoundary c.tokens j} d.position) := by
  obtain ⟨u, hu, hend⟩ := h
  obtain ⟨t, ts, hahead⟩ := List.exists_cons_of_ne_nil (List.ne_nil_of_mem hu)
  have hat : c.isAtEnd = .ok (decide (t.kind = .eof)) := by
    rw [isAtEnd, peek, hahead]
    rfl
  rw [hat]
  by_cases ht : t.kind = .eof
  · refine ⟨c, ?_, rfl, rfl, fun _ => rfl, fun hfalse => ?_⟩
    · have hstay : Grammar.synchronize c.ahead = ⟨.ok (), c.ahead⟩ := by
        rw [hahead, Grammar.synchronize, if_pos ht]
      rw [synchronize, after, hstay, moveTo_ahead]
    · simp [ht] at hfalse
  · have hmem : u ∈ ts := by
      rw [hahead] at hu
      refine (List.mem_cons.mp hu).resolve_left ?_
      rintro rfl
      exact ht hend
    obtain ⟨i, hfirst, hle, hrun⟩ := exists_synchronize ht ⟨u, hmem, hend⟩
    rw [← hahead] at hfirst hrun
    have hshort : i ≤ c.ahead.length := by
      rw [hahead]
      exact Nat.le_succ_of_le hle
    refine ⟨c.moveTo (c.ahead.drop i), ?_, c.moveTo_tokens (List.drop_suffix _ _), rfl,
      fun htrue => ?_, fun _ => ?_⟩
    · rw [synchronize, after, hrun]
    · simp [ht] at htrue
    · rw [position_moveTo_drop hshort]
      exact isLeast_of_firstBoundary hfirst

/-- At a word that starts a statement the cursor moves behind the next semicolon. -/
theorem synchronize_first_boundary_print :
    let nothing : Token := ⟨.nilWord, "nil", .nil, 1⟩
    let word : Token := ⟨.printWord, "print", .nil, 1⟩
    let stop : Token := ⟨.semicolon, ";", .nil, 1⟩
    let c : Cursor := ⟨[nothing], [word, nothing, stop, nothing, word, .ending 1], []⟩
    (∃ t ∈ c.ahead, t.kind = .eof) ∧ c.isAtEnd = .ok false ∧
      ∃ d, c.synchronize = (.ok (), d) ∧ d.tokens = c.tokens ∧ d.errors = c.errors ∧
        d.position = 4 ∧ IsLeast {j | c.position < j ∧ IsBoundary c.tokens j} d.position := by
  intro nothing word stop c
  have hend : ∃ t ∈ c.ahead, t.kind = .eof := ⟨.ending 1, by simp [c], rfl⟩
  obtain ⟨d, hd, htokens, herrors, -, hleast⟩ := synchronize_first_boundary hend
  have hposition : c.synchronize.2.position = 4 := by decide +kernel
  rw [hd] at hposition
  exact ⟨hend, rfl, d, hd, htokens, herrors, hposition, hleast rfl⟩

end Cursor

end ExprScript
