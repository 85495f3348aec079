import ExprScript.Proofs.Completeness
import Mathlib.Order.Bounds.Basic

namespace ExprScript

/-- A token of the kind is an operand by itself. -/
def Kind.isAtom : Kind → Bool
  | .falseWord | .trueWord | .nilWord | .number | .string | .identifier => true
  | _ => false

namespace Grammar

/-- The kinds of the tokens of an expression, by the rules of the grammar. The ranks of the four
levels of binary operators come first, rank 4 takes prefix operators, and rank 5 is left to
literals, names and groups. -/
inductive Phrase : Nat → List Kind → Prop where
  | atom {k : Kind} (alone : k.isAtom = true) : Phrase 5 [k]
  | group {ks : List Kind} (inner : Phrase 0 ks) :
      Phrase 5 (.leftParen :: ks ++ [.rightParen])
  | primary {ks : List Kind} (plain : Phrase 5 ks) : Phrase 4 ks
  | prefixed (op : UnaryOp) {ks : List Kind} (operand : Phrase 4 ks) : Phrase 4 (op.kind :: ks)
  | single (level : Level) {ks : List Kind} (operand : Phrase (level.rank + 1) ks) :
      Phrase level.rank ks
  | joined (op : BinaryOp) {xs ys : List Kind} (left : Phrase op.level.rank xs)
      (right : Phrase (op.level.rank + 1) ys) : Phrase op.level.rank (xs ++ op.kind :: ys)

/-- The kinds of the tokens of one declaration, by the rules of the grammar. -/
inductive Sentence : List Kind → Prop where
  | declare : Sentence [.varWord, .identifier, .semicolon]
  | initialise {ks : List Kind} (initial : Phrase 0 ks) :
      Sentence (.varWord :: .identifier :: .equal :: ks ++ [.semicolon])
  | print {ks : List Kind} (shown : Phrase 0 ks) : Sentence (.printWord :: ks ++ [.semicolon])
  | expression {ks : List Kind} (value : Phrase 0 ks) : Sentence (ks ++ [.semicolon])

/-- The kinds of the tokens of a program: declarations, and the end mark. -/
inductive ProgramKinds : List Kind → Prop where
  | done : ProgramKinds [.eof]
  | cons {xs ys : List Kind} (first : Sentence xs) (others : ProgramKinds ys) :
      ProgramKinds (xs ++ ys)

/-- The kinds of the tokens of one expression, and the end mark. -/
def WholeKinds (ks : List Kind) : Prop := ∃ xs, Phrase 0 xs ∧ ks = xs ++ [.eof]

/-- Something in the language begins this way. -/
def Viable (language : List Kind → Prop) (ks : List Kind) : Prop :=
  ∃ more, language (ks ++ more)

/-- The index is the least one whose token cannot stand where it does: nothing in the language
begins with the tokens up to and with it, and something begins with the tokens before it. -/
structure FirstMisfit (language : List Kind → Prop) (ks : List Kind) (i : Nat) : Prop where
  fits : Viable language (ks.take i)
  least : IsLeast {j | ¬ Viable language (ks.take (j + 1))} i

theorem Viable.of_append {language : List Kind → Prop} {xs ys : List Kind}
    (h : Viable language (xs ++ ys)) : Viable language xs := by
  obtain ⟨more, hmore⟩ := h
  exact ⟨ys ++ more, by rwa [← List.append_assoc]⟩

/-- Where a reader of a program stands: what it has read decides which tokens may come next. Inside
an expression that is the kind of token that ends it and the number of groups still open. -/
inductive Place where
  | sentence
  | name
  | initial
  | operand (closer : Kind) (depth : Nat)
  | operator (closer : Kind) (depth : Nat)
  | finished
deriving DecidableEq

namespace Place

/-- The kind that ends an expression or the innermost group, and the place behind it. -/
def exit (closer : Kind) : Nat → Kind × Place
  | 0 => (closer, if closer = .semicolon then sentence else finished)
  | depth + 1 => (.rightParen, operator closer depth)

/-- The place behind a token that starts an operand or precedes one. -/
def intoOperand (closer : Kind) (depth : Nat) (k : Kind) : Option Place :=
  if k.isAtom then some (operator closer depth)
  else if k = .leftParen then some (operand closer (depth + 1))
  else if (UnaryOp.ofKind? k).isSome then some (operand closer depth)
  else none

/-- The place behind a token of the kind, if such a token may come next. -/
def next : Place → Kind → Option Place
  | sentence, k =>
    match k with
    | .eof => some finished
    | .varWord => some name
    | .printWord => some (operand .semicolon 0)
    | k => intoOperand .semicolon 0 k
  | name, k => if k = .identifier then some initial else none
  | initial, k =>
    match k with
    | .equal => some (operand .semicolon 0)
    | .semicolon => some sentence
    | _ => none
  | operand closer depth, k => intoOperand closer depth k
  | operator closer depth, k =>
    if (BinaryOp.ofKind? k).isSome then some (operand closer depth)
    else if k = (exit closer depth).1 then some (exit closer depth).2
    else none
  | finished, _ => none

/-- The place behind tokens of the kinds, if they may come one after another. -/
def follow (p : Place) (ks : List Kind) : Option Place := ks.foldlM next p

@[simp] theorem follow_nil (p : Place) : p.follow [] = some p := rfl

@[simp] theorem follow_cons (p : Place) (k : Kind) (ks : List Kind) :
    p.follow (k :: ks) = (p.next k).bind (·.follow ks) := rfl

@[simp] theorem follow_append (p : Place) (xs ys : List Kind) :
    p.follow (xs ++ ys) = (p.follow xs).bind (·.follow ys) := List.foldlM_append

theorem next_unary (closer : Kind) (depth : Nat) (op : UnaryOp) :
    (operand closer depth).next op.kind = some (operand closer depth) := by
  cases op <;> rfl

theorem next_binary (closer : Kind) (depth : Nat) (op : BinaryOp) :
    (operator closer depth).next op.kind = some (operand closer depth) := by
  simp [next, BinaryOp.ofKind?_eq_some_iff.mpr rfl]

theorem next_exit {closer : Kind} {depth : Nat}
    (h : BinaryOp.ofKind? (exit closer depth).1 = none) :
    (operator closer depth).next (exit closer depth).1 = some (exit closer depth).2 := by
  simp [next, h]

theorem next_operator_eq_none {closer : Kind} {depth : Nat} {k : Kind}
    (hbinary : BinaryOp.ofKind? k = none) (hexit : k ≠ (exit closer depth).1) :
    (operator closer depth).next k = none := by
  simp [next, hbinary, hexit]

theorem next_rightParen (closer : Kind) (depth : Nat) :
    (operator closer (depth + 1)).next .rightParen = some (operator closer depth) := rfl

theorem sentence_next {k : Kind} (heof : k ≠ .eof) (hvar : k ≠ .varWord)
    (hprint : k ≠ .printWord) : sentence.next k = (operand .semicolon 0).next k := by
  cases k <;> first | rfl | contradiction

end Place

open Place

/-- The tokens of an expression lead from where an operand is due to where one is complete. -/
theorem Phrase.follow {rank : Nat} {ks : List Kind} (h : Phrase rank ks) (closer : Kind)
    (depth : Nat) :
    (operand closer depth).follow ks = some (operator closer depth) := by
  induction h generalizing depth with
  | @atom k alone =>
    have hstep : (operand closer depth).next k = some (operator closer depth) := by
      simp [Place.next, intoOperand, alone]
    simp [hstep]
  | group _ ih =>
    have hopen : (operand closer depth).next .leftParen = some (operand closer (depth + 1)) := rfl
    simp [hopen, ih, next_rightParen]
  | primary _ ih => exact ih depth
  | prefixed op _ ih => simp [next_unary, ih]
  | single _ _ ih => exact ih depth
  | joined op _ _ ihl ihr => simp [ihl, next_binary, ihr]

/-- An expression and the semicolon behind it lead to the next sentence. -/
theorem Phrase.follow_semicolon {ks : List Kind} (h : Phrase 0 ks) :
    (operand .semicolon 0).follow (ks ++ [.semicolon]) = some sentence := by
  rw [follow_append, h.follow]
  rfl

theorem Sentence.follow {ks : List Kind} (h : Sentence ks) :
    sentence.follow ks = some sentence := by
  cases h with
  | declare => rfl
  | initialise initial => exact initial.follow_semicolon
  | print shown => exact shown.follow_semicolon
  | @expression xs value =>
    have hbody := value.follow_semicolon
    cases xs with
    | nil => cases hbody
    | cons k xs =>
      obtain ⟨q, hq, hrest⟩ := Option.bind_eq_some_iff.mp hbody
      have hstart : sentence.next k = some q := by
        rw [← hq]
        apply sentence_next <;> rintro rfl <;> cases hq
      rw [List.cons_append, follow_cons, hstart]
      exact hrest

theorem ProgramKinds.follow {ks : List Kind} (h : ProgramKinds ks) :
    sentence.follow ks = some finished := by
  induction h with
  | done => rfl
  | cons first _ ih => simp [first.follow, ih]

theorem WholeKinds.follow {ks : List Kind} (h : WholeKinds ks) :
    (operand .eof 0).follow ks = some finished := by
  obtain ⟨xs, hxs, rfl⟩ := h
  simp [hxs.follow, Place.next, BinaryOp.ofKind?, Place.exit]

/-- An operand is an expression of every lower rank too. -/
theorem Phrase.lower {rank : Nat} {ks : List Kind} (h : Phrase 4 ks) (hr : rank ≤ 4) :
    Phrase rank ks := by
  induction hr using Nat.decreasingInduction with
  | self => exact h
  | of_succ rank hlt ih =>
    obtain ⟨level, rfl⟩ := Level.exists_rank hlt
    exact .single level ih

/-- Another operand may be joined to an expression at its right end by any operator of its rank or
a higher one. It belongs to the last operand whose own rank the operator does not reach. -/
theorem Phrase.join {rank : Nat} {xs ys : List Kind} (left : Phrase rank xs) (op : BinaryOp)
    (hr : rank ≤ op.level.rank) (right : Phrase 4 ys) : Phrase rank (xs ++ op.kind :: ys) := by
  have hlt := op.level.rank_lt
  have htight : Phrase (op.level.rank + 1) ys := right.lower hlt
  induction left with
  | atom => omega
  | group => omega
  | primary => omega
  | prefixed => omega
  | single level operand ih =>
    by_cases hsame : level.rank = op.level.rank
    · obtain rfl := Level.rank_injective hsame
      exact .joined op (.single _ operand) htight
    · exact .single level (ih (by omega))
  | @joined op' us vs left' right' _ ih =>
    by_cases hsame : op'.level.rank = op.level.rank
    · rw [hsame] at left' right' ⊢
      exact .joined op (hsame ▸ .joined op' (hsame ▸ left') (hsame ▸ right')) htight
    · simpa using Phrase.joined op' left' (ih (by omega))

/-- What may follow an expression: further operands behind operators, then a token of the given
kind and what may follow that. -/
inductive Continues (k : Kind) (behind : List Kind → Prop) : List Kind → Prop where
  | stop {ks : List Kind} (h : behind ks) : Continues k behind (k :: ks)
  | join (op : BinaryOp) {xs ys : List Kind} (right : Phrase 4 xs)
      (onward : Continues k behind ys) : Continues k behind (op.kind :: xs ++ ys)

/-- What follows an expression can be split where the expression ends. The operands on the way
belong to the expression. -/
theorem Continues.split {k : Kind} {behind : List Kind → Prop} {ys : List Kind}
    (h : Continues k behind ys) {xs : List Kind} (left : Phrase 0 xs) :
    ∃ us vs, xs ++ ys = us ++ k :: vs ∧ Phrase 0 us ∧ behind vs := by
  induction h generalizing xs with
  | stop h => exact ⟨xs, _, rfl, left, h⟩
  | @join op zs ys right _ ih =>
    obtain ⟨us, vs, hsplit, hus, hvs⟩ := ih (left.join op (Nat.zero_le _) right)
    exact ⟨us, vs, by simpa using hsplit, hus, hvs⟩

/-- What may follow an expression inside the given number of open groups, up to the end. -/
def Closing (closer : Kind) : Nat → List Kind → Prop
  | 0 => Continues closer fun ks => if closer = .semicolon then ProgramKinds ks else ks = []
  | depth + 1 => Continues .rightParen (Closing closer depth)

theorem Closing.join {closer : Kind} {depth : Nat} (op : BinaryOp) {xs ys : List Kind}
    (right : Phrase 4 xs) (h : Closing closer depth ys) :
    Closing closer depth (op.kind :: xs ++ ys) := by
  cases depth with
  | zero => exact Continues.join op right h
  | succ depth => exact Continues.join op right h

theorem Closing.exists (closer : Kind) (depth : Nat) : ∃ ks, Closing closer depth ks := by
  induction depth with
  | zero =>
    by_cases h : closer = .semicolon
    · exact ⟨[closer, .eof], .stop (by simpa [h] using ProgramKinds.done)⟩
    · exact ⟨[closer], .stop (by simp [h])⟩
  | succ depth ih =>
    obtain ⟨ks, hks⟩ := ih
    exact ⟨.rightParen :: ks, .stop hks⟩

/-- What may come at a place, up to the end. Inside a declaration that is what completes its
beginning. -/
def Place.Leads : Place → List Kind → Prop
  | sentence, ks => ProgramKinds ks
  | name, ks => ProgramKinds (.varWord :: ks)
  | initial, ks => ProgramKinds (.varWord :: .identifier :: ks)
  | operand closer depth, ks => ∃ xs ys, ks = xs ++ ys ∧ Phrase 4 xs ∧ Closing closer depth ys
  | operator closer depth, ks => Closing closer depth ks
  | finished, ks => ks = []

/-- Something may come at every place. -/
theorem Place.leads_exists (p : Place) : ∃ ks, p.Leads ks := by
  have hdeclare : ProgramKinds [.varWord, .identifier, .semicolon, .eof] :=
    .cons .declare .done
  cases p with
  | sentence => exact ⟨_, .done⟩
  | name => exact ⟨_, hdeclare⟩
  | initial => exact ⟨_, hdeclare⟩
  | operand closer depth =>
    obtain ⟨ks, hks⟩ := Closing.exists closer depth
    exact ⟨.nilWord :: ks, [.nilWord], ks, rfl, .primary (.atom rfl), hks⟩
  | operator closer depth => exact Closing.exists closer depth
  | finished => exact ⟨[], rfl⟩

/-- What is due at an operand starts with a whole expression, up to the token that ends it. -/
theorem Place.leads_operand {closer : Kind} {ks : List Kind}
    (h : (operand closer 0).Leads ks) :
    ∃ us vs, ks = us ++ closer :: vs ∧ Phrase 0 us ∧
      if closer = .semicolon then ProgramKinds vs else vs = [] := by
  obtain ⟨xs, ys, rfl, hxs, hys⟩ := h
  exact Continues.split hys (hxs.lower (Nat.zero_le 4))

/-- What may come behind a token that starts an operand may, with this token, come where an operand
is due. An open group takes what follows up to its parenthesis. -/
theorem Place.leads_of_intoOperand {closer : Kind} {depth : Nat} {k : Kind} {q : Place}
    {ks : List Kind} (hstep : intoOperand closer depth k = some q) (h : q.Leads ks) :
    (operand closer depth).Leads (k :: ks) := by
  unfold intoOperand at hstep
  split at hstep
  · rename_i alone
    cases hstep
    exact ⟨[k], ks, rfl, .primary (.atom alone), h⟩
  · split at hstep
    · rename_i hparen
      subst hparen
      cases hstep
      obtain ⟨xs, ys, rfl, hxs, hys⟩ := h
      obtain ⟨us, vs, hsplit, hus, hvs⟩ :=
        Continues.split hys (hxs.lower (Nat.zero_le 4))
      exact ⟨.leftParen :: us ++ [.rightParen], vs, by simp [hsplit], .primary (.group hus), hvs⟩
    · split at hstep
      · rename_i hprefix
        cases hstep
        obtain ⟨op, hop⟩ := Option.isSome_iff_exists.mp hprefix
        obtain rfl := UnaryOp.ofKind?_eq_some_iff.mp hop
        obtain ⟨xs, ys, rfl, hxs, hys⟩ := h
        exact ⟨op.kind :: xs, ys, rfl, .prefixed op hxs, hys⟩
      · cases hstep

/-- What may come behind a token may, with this token in front, come at the place before it. -/
theorem Place.leads_of_next {p q : Place} {k : Kind} {ks : List Kind} (hstep : p.next k = some q)
    (h : q.Leads ks) : p.Leads (k :: ks) := by
  cases p with
  | sentence =>
    simp only [next] at hstep
    split at hstep
    · cases hstep
      obtain rfl : ks = [] := h
      exact .done
    · cases hstep
      exact h
    · cases hstep
      obtain ⟨us, vs, rfl, hus, hvs⟩ := leads_operand h
      have hall : ProgramKinds ((.printWord :: us ++ [.semicolon]) ++ vs) := .cons (.print hus) hvs
      rwa [List.append_assoc] at hall
    · obtain ⟨us, vs, hsplit, hus, hvs⟩ := leads_operand (leads_of_intoOperand hstep h)
      have hall : ProgramKinds ((us ++ [.semicolon]) ++ vs) := .cons (.expression hus) hvs
      rwa [List.append_assoc, List.singleton_append, ← hsplit] at hall
  | name =>
    simp only [next] at hstep
    split at hstep
    · rename_i hname
      subst hname
      cases hstep
      exact h
    · cases hstep
  | initial =>
    simp only [next] at hstep
    split at hstep
    · cases hstep
      obtain ⟨us, vs, rfl, hus, hvs⟩ := leads_operand h
      have hall : ProgramKinds ((.varWord :: .identifier :: .equal :: us ++ [.semicolon]) ++ vs) :=
        .cons (.initialise hus) hvs
      rwa [List.append_assoc] at hall
    · cases hstep
      exact .cons .declare h
    · cases hstep
  | operand closer depth => exact leads_of_intoOperand hstep h
  | operator closer depth =>
    simp only [next] at hstep
    split at hstep
    · rename_i hbinary
      cases hstep
      obtain ⟨op, hop⟩ := Option.isSome_iff_exists.mp hbinary
      obtain rfl := BinaryOp.ofKind?_eq_some_iff.mp hop
      obtain ⟨xs, ys, rfl, hxs, hys⟩ := h
      exact hys.join op hxs
    · split at hstep
      · rename_i hexit
        subst hexit
        cases hstep
        cases depth with
        | zero =>
          apply Continues.stop
          by_cases hc : closer = .semicolon <;> simpa [exit, hc, Leads] using h
        | succ depth => exact Continues.stop h
      · cases hstep
  | finished => cases hstep

theorem Place.leads_of_follow {p q : Place} {xs ys : List Kind} (hstep : p.follow xs = some q)
    (h : q.Leads ys) : p.Leads (xs ++ ys) := by
  induction xs generalizing p with
  | nil =>
    cases hstep
    exact h
  | cons k xs ih =>
    obtain ⟨p', hk, hrest⟩ := Option.bind_eq_some_iff.mp hstep
    exact leads_of_next hk (ih hrest)

/-- Tokens begin something in a language exactly when they can be followed from a place, if what may
come there is the language. -/
theorem viable_iff_follow {language : List Kind → Prop} {p : Place}
    (hleads : ∀ ks, p.Leads ks → language ks)
    (hfollow : ∀ ks, language ks → (p.follow ks).isSome) (ks : List Kind) :
    Viable language ks ↔ (p.follow ks).isSome := by
  constructor
  · rintro ⟨more, hmore⟩
    have hall := hfollow _ hmore
    rw [follow_append] at hall
    exact Option.isSome_of_isSome_bind hall
  · intro h
    obtain ⟨q, hq⟩ := Option.isSome_iff_exists.mp h
    obtain ⟨more, hmore⟩ := q.leads_exists
    exact ⟨more, hleads _ (Place.leads_of_follow hq hmore)⟩

theorem viable_program_iff (ks : List Kind) :
    Viable ProgramKinds ks ↔ (sentence.follow ks).isSome :=
  viable_iff_follow (p := sentence) (fun _ h => h) (fun _ h => by simp [h.follow]) ks

theorem viable_whole_iff (ks : List Kind) :
    Viable WholeKinds ks ↔ ((operand .eof 0).follow ks).isSome := by
  apply viable_iff_follow
  · intro ks h
    obtain ⟨us, vs, rfl, hus, hvs⟩ := Place.leads_operand h
    obtain rfl : vs = [] := by simpa using hvs
    exact ⟨us, hus, rfl⟩
  · intro ks h
    simp [h.follow]

/-- Where tokens can be followed from a place and the next one cannot, that next one is the least
misfit of the language of that place. -/
theorem firstMisfit_of_stuck {language : List Kind → Prop} {p q : Place}
    (hviable : ∀ ks, Viable language ks ↔ (p.follow ks).isSome) {front : List Kind} {k : Kind}
    (more : List Kind) (hfront : p.follow front = some q) (hstuck : q.next k = none) :
    FirstMisfit language (front ++ k :: more) front.length := by
  have hfits : Viable language front := (hviable front).mpr (by simp [hfront])
  refine ⟨by simpa using hfits, ?_, ?_⟩
  · have hstop : ¬ Viable language (front ++ [k]) := by
      rw [hviable]
      simp [hfront, hstuck]
    simpa [List.take_length_add_append] using hstop
  · intro j hj
    by_contra hlt
    apply hj
    have hshort : j + 1 ≤ front.length := by omega
    rw [List.take_append_of_le_length hshort]
    rw [← List.take_append_drop (j + 1) front] at hfits
    exact hfits.of_append

end Grammar

end ExprScript
