import ExprScript.Proofs.Digits

namespace ExprScript

/-- Texts are equal piece by piece when each has the same mark behind a front without it. -/
theorem append_mark_inj {mark : Char} {xs ys as bs : List Char} (hx : mark ∉ xs) (ha : mark ∉ as)
    (h : xs ++ mark :: ys = as ++ mark :: bs) : xs = as ∧ ys = bs := by
  have hspan {front : List Char} (hfront : mark ∉ front) (rest : List Char) :
      (front ++ mark :: rest).span (· ≠ mark) = (front, mark :: rest) := by
    apply Number.Numeral.span_append
    · intro c hc
      rw [decide_eq_true_eq]
      rintro rfl
      exact hfront hc
    · simp
  have hboth := hspan hx ys
  rw [h, hspan ha bs] at hboth
  obtain ⟨hfront, hrest⟩ := Prod.mk.inj hboth
  exact ⟨hfront.symm, (List.cons.inj hrest).2.symm⟩

namespace Number

theorem pointed_spells {whole fraction others places : List Char} (h : AreDigits whole fraction)
    (ho : AreDigits others places) (heq : pointed whole fraction = pointed others places) :
    spelledDecimal whole fraction = spelledDecimal others places := by
  have hread := Numeral.decimal?_pointed h
  rw [heq, Numeral.decimal?_pointed ho] at hread
  exact (Option.some.inj hread).symm

/-- What marks an exponent stands in no numeral without one. -/
theorem not_mem_pointed {whole fraction : List Char} (h : AreDigits whole fraction) :
    'e' ∉ pointed whole fraction := by
  intro hmem
  rcases Numeral.isPlain_of_mem_pointed h _ hmem with hdigit | hpoint
  · cases hdigit
  · cases hpoint

namespace Decimal

/-- The order of the leading digit, in two digits or more. -/
def orderText (d : Decimal) : List Char :=
  List.replicate (2 - (Nat.toDigits 10 d.order.natAbs).length) '0' ++
    Nat.toDigits 10 d.order.natAbs

theorem ofDigitChars_orderText (d : Decimal) :
    Nat.ofDigitChars 10 d.orderText 0 = d.order.natAbs := by
  rw [orderText, Nat.ofDigitChars_append, Nat.ofDigitChars_replicate_zero, Nat.mul_zero,
    Nat.ofDigitChars_ten_toDigits]

theorem isDigit_of_mem_orderText {d : Decimal} {c : Char} (h : c ∈ d.orderText) :
    c.isDigit = true := by
  rcases List.mem_append.mp h with hpad | hdigit
  · obtain rfl := List.eq_of_mem_replicate hpad
    rfl
  · exact Nat.isDigit_of_mem_toDigits (by decide) (by decide) hdigit

/-- The text with an exponent is the digits with a point behind the first, unless that is the only
one, and then the order. -/
theorem exists_scientific (d : Decimal) :
    ∃ c cs, d.digits = c :: cs ∧ AreDigits [c] cs ∧ d.scientific =
      pointed [c] cs ++ 'e' :: (if d.order < 0 then '-' else '+') :: d.orderText := by
  have hne : d.digits ≠ [] := Nat.toDigits_ne_nil
  obtain ⟨c, cs, hdigits⟩ := List.exists_cons_of_ne_nil hne
  have hall : ∀ digit ∈ c :: cs, digit.isDigit = true := by
    intro digit hdigit
    rw [← hdigits] at hdigit
    exact isDigit_of_mem_digits hdigit
  obtain ⟨hc, hcs⟩ := List.forall_mem_cons.mp hall
  refine ⟨c, cs, hdigits, ⟨by simp, by simpa using hc, hcs⟩, ?_⟩
  unfold scientific orderText
  rw [hdigits]
  cases cs <;> simp [pointed]

/-- A decimal is determined by its text with an exponent. -/
theorem eq_of_scientific {d e : Decimal} (h : d.scientific = e.scientific) : d = e := by
  obtain ⟨c, cs, hd, hc, htext⟩ := d.exists_scientific
  obtain ⟨a, as, he, ha, hother⟩ := e.exists_scientific
  rw [htext, hother] at h
  obtain ⟨hdigits, hexponent⟩ := append_mark_inj (not_mem_pointed hc) (not_mem_pointed ha) h
  obtain ⟨hsign, horder⟩ := List.cons.inj hexponent
  have hspelled := pointed_spells hc ha hdigits
  have hmantissa : d.mantissa = e.mantissa := by
    rw [← d.ofDigitChars_digits, ← e.ofDigitChars_digits, hd, he]
    exact congrArg mantissa hspelled
  have hlength : d.digits.length = e.digits.length := by rw [digits, digits, hmantissa]
  have hsize : d.order.natAbs = e.order.natAbs := by
    rw [← d.ofDigitChars_orderText, ← e.ofDigitChars_orderText, horder]
  have hside : d.order < 0 ↔ e.order < 0 := by
    by_cases hn : d.order < 0 <;> by_cases ho : e.order < 0 <;> simp [hn, ho] at hsign ⊢
  have horders : d.order = e.order := by omega
  have hexponents : d.exponent = e.exponent := by
    unfold order at horders
    omega
  cases d
  cases e
  obtain rfl := hmantissa
  obtain rfl := hexponents
  rfl

/-- The text without an exponent spells the value. -/
theorem exists_positional (d : Decimal) :
    ∃ whole fraction, AreDigits whole fraction ∧ d.positional false = pointed whole fraction ∧
      (spelledDecimal whole fraction).toRat = d.toRat := by
  obtain ⟨hdigits, hvalue⟩ := d.parts_spell
  exact ⟨_, _, hdigits, d.positional_eq_pointed, hvalue⟩

theorem positional_ne_scientific (d e : Decimal) : d.positional false ≠ e.scientific := by
  obtain ⟨whole, fraction, hdigits, htext, -⟩ := d.exists_positional
  obtain ⟨c, cs, -, -, hother⟩ := e.exists_scientific
  intro h
  have hmem : 'e' ∈ e.scientific := by simp [hother]
  rw [← h, htext] at hmem
  exact not_mem_pointed hdigits hmem

/-- Decimals with the same text have the same value. -/
theorem toRat_of_write {d e : Decimal} (h : d.write .display = e.write .display) :
    d.toRat = e.toRat := by
  unfold write at h
  split at h <;> split at h
  · obtain ⟨whole, fraction, hdigits, htext, hvalue⟩ := d.exists_positional
    obtain ⟨others, places, hothers, hother, hsame⟩ := e.exists_positional
    have hpointed : pointed whole fraction = pointed others places := by
      rw [← htext, ← hother]
      exact h
    rw [← hvalue, ← hsame, pointed_spells hdigits hothers hpointed]
  · exact absurd h (positional_ne_scientific d e)
  · exact absurd h.symm (positional_ne_scientific e d)
  · rw [eq_of_scientific h]

/-- The characters of the texts of decimals behind the first one, which is a digit. -/
def IsInner (c : Char) : Prop := c.isDigit = true ∨ c ∈ ['.', 'e', '-', '+']

theorem isInner_of_mem_pointed {whole fraction : List Char} (h : AreDigits whole fraction)
    {c : Char} (hc : c ∈ pointed whole fraction) : IsInner c := by
  rcases Numeral.isPlain_of_mem_pointed h c hc with hdigit | rfl
  · exact .inl hdigit
  · exact .inr (by simp)

theorem isInner_of_mem_scientific {d : Decimal} {c : Char} (h : c ∈ d.scientific) : IsInner c := by
  obtain ⟨a, as, -, hdigits, htext⟩ := d.exists_scientific
  rw [htext, List.mem_append, List.mem_cons, List.mem_cons] at h
  rcases h with h | rfl | rfl | h
  · exact isInner_of_mem_pointed hdigits h
  · exact .inr (by simp)
  · right
    split <;> simp
  · exact .inl (isDigit_of_mem_orderText h)

theorem isInner_of_mem_write {d : Decimal} {c : Char} (h : c ∈ d.write .display) : IsInner c := by
  unfold write at h
  split at h
  · obtain ⟨whole, fraction, hdigits, htext, -⟩ := d.exists_positional
    have hmem : c ∈ d.positional false := h
    rw [htext] at hmem
    exact isInner_of_mem_pointed hdigits hmem
  · exact isInner_of_mem_scientific h

end Decimal

theorem Decimal.positional_head (d : Decimal) :
    ∃ c cs, d.positional false = c :: cs ∧ c.isDigit = true := by
  obtain ⟨whole, fraction, hdigits, htext, -⟩ := d.exists_positional
  obtain ⟨c, cs, hpointed, hc⟩ := pointed_head hdigits
  exact ⟨c, cs, htext.trans hpointed, hc⟩

theorem Decimal.write_head (d : Decimal) :
    ∃ c cs, d.write .display = c :: cs ∧ c.isDigit = true := by
  unfold write
  split
  · exact d.positional_head
  · obtain ⟨a, as, -, hdigits, htext⟩ := d.exists_scientific
    obtain ⟨c, cs, hpointed, hc⟩ := pointed_head hdigits
    exact ⟨c, _, by rw [htext, hpointed, List.cons_append], hc⟩

variable {x y : Float}

theorem write_of_isFinite (h : x.isFinite = true) (layout : Layout) :
    write layout x =
      if isNegative x then '-' :: writeMagnitude layout x else writeMagnitude layout x := by
  obtain ⟨hnan, hinf⟩ := isFinite_iff.mp h
  rw [write, if_neg (Bool.eq_false_iff.mp hnan), if_neg (Bool.eq_false_iff.mp hinf)]
  split <;> rfl

/-- The text of a finite number is a digit with others behind it, and a minus in front if the number
is negative. -/
theorem write_characters (h : x.isFinite = true) :
    ∃ c cs, write .display x = c :: cs ∧ (c.isDigit = true ∨ c = '-') ∧
      ∀ d ∈ c :: cs, Decimal.IsInner d := by
  obtain ⟨c, cs, htext, hc⟩ := (Decimal.shortest x).write_head
  have hinner : ∀ d ∈ c :: cs, Decimal.IsInner d := by
    intro d hd
    rw [← htext] at hd
    exact Decimal.isInner_of_mem_write hd
  rw [write_of_isFinite h, writeMagnitude, htext]
  split
  · exact ⟨'-', c :: cs, rfl, .inr rfl, List.forall_mem_cons.mpr ⟨.inr (by simp), hinner⟩⟩
  · exact ⟨c, cs, rfl, .inl hc, hinner⟩

theorem magnitudeBits_of_write (hx : x.isFinite = true) (hy : y.isFinite = true)
    (h : writeMagnitude .display x = writeMagnitude .display y) :
    magnitudeBits x = magnitudeBits y := by
  obtain ⟨hxnan, hxinf⟩ := isFinite_iff.mp hx
  obtain ⟨hynan, hyinf⟩ := isFinite_iff.mp hy
  have hxback : nearestBits (Decimal.shortest x).toRat = magnitudeBits x :=
    Decimal.shortest_readsBack (magnitudeBits_lt hxnan hxinf)
  have hyback : nearestBits (Decimal.shortest y).toRat = magnitudeBits y :=
    Decimal.shortest_readsBack (magnitudeBits_lt hynan hyinf)
  rw [← hxback, ← hyback, Decimal.toRat_of_write h]

/-- Different finite numbers have different texts. -/
theorem write_injective (hx : x.isFinite = true) (hy : y.isFinite = true)
    (h : write .display x = write .display y) : x = y := by
  have hdetermined := eq_of_magnitudeBits (isFinite_iff.mp hx).1 (isFinite_iff.mp hy).1
  rw [write_of_isFinite hx, write_of_isFinite hy] at h
  have hminus (z w : Float) : '-' :: writeMagnitude .display z ≠ writeMagnitude .display w := by
    obtain ⟨c, cs, htext, hc⟩ := (Decimal.shortest w).write_head
    rw [writeMagnitude, writeMagnitude, htext]
    intro heq
    obtain ⟨rfl, -⟩ := List.cons.inj heq
    cases hc
  split at h <;> split at h
  · rename_i hs ht
    exact hdetermined (hs.trans ht.symm) (magnitudeBits_of_write hx hy (List.cons.inj h).2)
  · exact absurd h (hminus x y)
  · exact absurd h.symm (hminus y x)
  · rename_i hs ht
    have hsign : isNegative x = isNegative y :=
      (Bool.eq_false_iff.mpr hs).trans (Bool.eq_false_iff.mpr ht).symm
    exact hdetermined hsign (magnitudeBits_of_write hx hy h)

end Number

end ExprScript
