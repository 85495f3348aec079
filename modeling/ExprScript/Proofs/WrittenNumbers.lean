import ExprScript.Expression.Source
import ExprScript.Proofs.NumberTexts

namespace ExprScript

namespace Number

/-- What a whole number written as a number ends in. -/
def pointZero : List Char := ['.', '0']

/-- The text without a point and a zero at its end. -/
def dropPointZero (cs : List Char) : List Char :=
  if pointZero.isSuffixOf cs then cs.take (cs.length - 2) else cs

theorem dropPointZero_append (cs : List Char) : dropPointZero (cs ++ pointZero) = cs := by
  simp [dropPointZero, pointZero]

theorem dropPointZero_of_not_suffix {cs : List Char} (h : ¬ pointZero <:+ cs) :
    dropPointZero cs = cs := by
  rw [dropPointZero, if_neg (by simpa using h)]

/-- What is dropped is a point and a zero, or nothing. -/
theorem eq_dropPointZero_or (cs : List Char) :
    cs = dropPointZero cs ∨ cs = dropPointZero cs ++ pointZero := by
  by_cases h : pointZero <:+ cs
  · obtain ⟨front, rfl⟩ := h
    exact .inr (by rw [dropPointZero_append])
  · exact .inl (dropPointZero_of_not_suffix h).symm

theorem dropPointZero_minus (cs : List Char) :
    dropPointZero ('-' :: cs) = '-' :: dropPointZero cs := by
  by_cases h : pointZero <:+ cs
  · obtain ⟨front, rfl⟩ := h
    rw [← List.cons_append, dropPointZero_append, dropPointZero_append]
  · have hminus : ¬ pointZero <:+ '-' :: cs := by
      intro hsuffix
      rcases List.suffix_cons_iff.mp hsuffix with heq | hbehind
      · cases heq
      · exact h hbehind
    rw [dropPointZero_of_not_suffix h, dropPointZero_of_not_suffix hminus]

namespace Decimal

/-- A whole number has a point and a zero behind its digits. -/
theorem positional_true (d : Decimal) :
    d.positional true =
      if d.parts.2 = [] then d.positional false ++ pointZero else d.positional false := by
  unfold positional
  split
  · rename_i whole hparts
    simp [hparts, pointZero]
  · rename_i whole fraction hne hparts
    have hfraction : d.parts.2 ≠ [] := by
      rw [hparts]
      rintro rfl
      exact hne rfl
    rw [if_neg hfraction]

theorem not_suffix_positional {d : Decimal} (h : d.IsTrimmed) :
    ¬ pointZero <:+ d.positional false := by
  rw [positional_eq_pointed]
  intro hsuffix
  cases hfraction : d.parts.2 with
  | nil =>
    rw [hfraction, pointed] at hsuffix
    have hpoint : '.'.isDigit = true :=
      d.parts_spell.1.whole '.' (hsuffix.subset (by simp [pointZero]))
    cases hpoint
  | cons c cs =>
    obtain ⟨front, heq⟩ := hsuffix
    have hlast := congrArg List.getLast? heq
    refine h.getLast?_ne ?_
    simpa [hfraction, pointed, pointZero] using hlast.symm

theorem dropPointZero_positional {d : Decimal} (h : d.IsTrimmed) :
    dropPointZero (d.positional true) = d.positional false := by
  rw [positional_true]
  split
  · exact dropPointZero_append _
  · exact dropPointZero_of_not_suffix (not_suffix_positional h)

theorem not_suffix_scientific (d : Decimal) : ¬ pointZero <:+ d.scientific := by
  obtain ⟨c, cs, -, -, htext⟩ := d.exists_scientific
  have hlength : pointZero.length ≤ d.orderText.length := by
    simp only [pointZero, orderText, List.length_cons, List.length_append, List.length_replicate,
      List.length_nil]
    omega
  intro h
  have horder : d.orderText <:+ d.scientific :=
    ⟨_, by rw [htext, List.append_cons, List.append_cons]⟩
  -- The last two characters are digits.
  have hsuffix := List.suffix_of_suffix_length_le h horder hlength
  have hpoint : '.'.isDigit = true :=
    isDigit_of_mem_orderText (hsuffix.subset (by simp [pointZero]))
  cases hpoint

theorem dropPointZero_write {d : Decimal} (h : d.IsTrimmed) :
    dropPointZero (d.write .detailed) = d.write .display := by
  unfold write
  have hsame : Layout.detailed.allows d.order = Layout.display.allows d.order := rfl
  rw [hsame]
  split
  · exact dropPointZero_positional h
  · exact dropPointZero_of_not_suffix d.not_suffix_scientific

end Decimal

/-- A number is shown as it stands in a list of tokens, without a point and a zero at the end. -/
theorem dropPointZero_write (x : Float) : dropPointZero (write .detailed x) = write .display x := by
  unfold write
  split
  · rfl
  rename_i hnan
  by_cases hinf : x.isInf = true
  · simp only [hinf, if_true]
    split <;> rfl
  · have hmagnitude : dropPointZero (writeMagnitude .detailed x) = writeMagnitude .display x :=
      Decimal.dropPointZero_write (Decimal.shortest_isTrimmed
        (magnitudeBits_lt (Bool.eq_false_iff.mpr hnan) (Bool.eq_false_iff.mpr hinf)))
    simp only [if_neg hinf]
    split
    · rw [List.singleton_append, dropPointZero_minus, hmagnitude, List.singleton_append]
    · exact hmagnitude

/-- The text of a magnitude without an exponent. -/
def expandedMagnitude? (cs : List Char) : Option (List Char) :=
  (Numeral.parts? cs).map fun (digits, places, exponent) =>
    (⟨Nat.ofDigitChars 10 digits 0, exponent - places⟩ : Decimal).positional false

/-- The text of a number with its exponent written out in digits. -/
def expanded? (cs : List Char) : Option (List Char) :=
  let (negative, rest) := Numeral.splitSign cs
  (expandedMagnitude? rest).map fun text => if negative then '-' :: text else text

theorem toDigits_ten_pow_mul {m : Nat} (hm : 0 < m) (n : Nat) :
    Nat.toDigits 10 (10 ^ n * m) = Nat.toDigits 10 m ++ List.replicate n '0' := by
  induction n with
  | zero => simp
  | succ n ih =>
    have hpos : 0 < 10 ^ n * m := Nat.mul_pos (Nat.pow_pos (by decide)) hm
    have hstep := Nat.toDigits_append_toDigits (by decide : 1 < 10) hpos (by decide : 0 < 10)
    rw [Nat.add_zero, ← Nat.mul_assoc, ← Nat.pow_succ', ih, Nat.toDigits_zero] at hstep
    rw [← hstep, List.append_assoc, ← List.replicate_succ']

namespace Decimal

theorem exponent?_orderText (d : Decimal) :
    Numeral.exponent? ('e' :: (if d.order < 0 then '-' else '+') :: d.orderText) =
      some d.order := by
  have hne : d.orderText ≠ [] := by simp [orderText, Nat.toDigits_ne_nil]
  have hall : d.orderText.all Char.isDigit = true :=
    List.all_eq_true.mpr fun c hc => isDigit_of_mem_orderText hc
  by_cases hsign : d.order < 0
  · have hsize : -(d.order.natAbs : Int) = d.order := by omega
    simp only [Numeral.exponent?, Numeral.splitSign, hsign, if_true, ofDigitChars_orderText, hsize]
    simp [hne, hall]
  · have hsize : (d.order.natAbs : Int) = d.order := by omega
    simp only [Numeral.exponent?, Numeral.splitSign, hsign, if_false, ofDigitChars_orderText, hsize]
    simp [hne, hall]

theorem expandedMagnitude?_scientific (d : Decimal) :
    expandedMagnitude? d.scientific = some (d.positional false) := by
  obtain ⟨c, cs, hdigits, hall, htext⟩ := d.exists_scientific
  have hmark : ¬ Numeral.IsPlain 'e' := by
    rintro (hdigit | hpoint)
    · cases hdigit
    · cases hpoint
  have hmantissa : Nat.ofDigitChars 10 ([c] ++ cs) 0 = d.mantissa := by
    rw [← d.ofDigitChars_digits, hdigits, List.singleton_append]
  have hexponent : d.order - cs.length = d.exponent := by
    rw [order, hdigits, List.length_cons]
    omega
  rw [expandedMagnitude?, htext, Numeral.parts?_pointed_append hall (by simpa using hmark),
    exponent?_orderText]
  simp only [Option.map_some, hmantissa, hexponent]

theorem expandedMagnitude?_pointed {whole fraction : List Char} (h : AreDigits whole fraction) :
    expandedMagnitude? (pointed whole fraction) =
      some ((spelledDecimal whole fraction).positional false) := by
  have hparts := @Numeral.parts?_pointed_append whole fraction h [] (by simp)
  rw [List.append_nil] at hparts
  simp only [expandedMagnitude?, hparts, Numeral.exponent?, Option.map_some, Int.zero_sub,
    spelledDecimal]

/-- Digits enough for the places behind the point are shared out as they are. -/
theorem parts_eq_of_digits {d : Decimal} {whole fraction : List Char} (hne : whole ≠ [])
    (hdigits : d.digits = whole ++ fraction) (hneg : fraction ≠ [])
    (hplaces : d.exponent = -fraction.length) : d.parts = (whole, fraction) := by
  have hwhole := List.length_pos_iff.mpr hne
  have hfraction := List.length_pos_iff.mpr hneg
  have hcount : (-d.exponent).toNat = fraction.length := by omega
  have hpadding : fraction.length + 1 - d.digits.length = 0 := by
    rw [hdigits, List.length_append]
    omega
  rw [parts, if_neg (by omega), hcount]
  simp only [hpadding]
  simp [hdigits]

/-- A whole number with a point and a zero is spelled out as that again. -/
theorem positional_of_whole {d : Decimal} (hpos : 0 < d.mantissa) (hexp : 0 ≤ d.exponent) :
    (spelledDecimal d.parts.1 ['0']).positional false = d.parts.1 ++ pointZero := by
  have hwhole : d.parts.1 = d.digits ++ List.replicate d.exponent.toNat '0' := by
    rw [parts, if_pos hexp]
  have hne : d.parts.1 ≠ [] := d.parts_spell.1.nonempty
  have hdigits : (spelledDecimal d.parts.1 ['0']).digits = d.parts.1 ++ ['0'] := by
    have hzeros : d.parts.1 ++ ['0'] =
        d.digits ++ List.replicate (d.exponent.toNat + 1) '0' := by
      rw [hwhole, List.append_assoc, ← List.replicate_succ']
    rw [spelledDecimal, digits, hzeros, Nat.ofDigitChars_append, ofDigitChars_digits,
      Nat.ofDigitChars_replicate_zero, toDigits_ten_pow_mul hpos, digits]
  rw [positional_eq_pointed, parts_eq_of_digits hne hdigits (by simp) rfl]
  rfl

theorem expandedMagnitude?_positional {d : Decimal} (h : d = ⟨0, 0⟩ ∨ d.mantissa % 10 ≠ 0) :
    expandedMagnitude? (d.positional true) = some (d.positional true) := by
  rcases h with rfl | hdigit
  · decide
  obtain ⟨hall, -⟩ := d.parts_spell
  rw [positional_true]
  split
  · rename_i hfraction
    have hexp : 0 ≤ d.exponent := by
      by_contra hneg
      have hspelled := (parts_of_neg (Int.not_le.mp hneg)).2
      rw [hfraction] at hspelled
      rw [← hspelled] at hneg
      exact hneg (Int.le_refl 0)
    have hpoint : d.positional false ++ pointZero = pointed d.parts.1 ['0'] := by
      rw [positional_eq_pointed, hfraction]
      rfl
    have hzero : AreDigits d.parts.1 ['0'] :=
      ⟨hall.nonempty, hall.whole, List.forall_mem_singleton.mpr rfl⟩
    rw [hpoint, expandedMagnitude?_pointed hzero, positional_of_whole (by omega) hexp]
    rfl
  · rename_i hfraction
    have hneg : d.exponent < 0 := by
      by_contra hexp
      exact hfraction (by rw [parts, if_pos (Int.not_lt.mp hexp)])
    rw [positional_eq_pointed, expandedMagnitude?_pointed hall, (parts_of_neg hneg).2,
      positional_eq_pointed]

theorem write_detailed_head {d : Decimal} (h : d.IsTrimmed) :
    ∃ c cs, d.write .detailed = c :: cs ∧ c.isDigit = true := by
  obtain ⟨c, cs, hdisplay, hc⟩ := d.write_head
  rcases eq_dropPointZero_or (d.write .detailed) with heq | heq
  · rw [dropPointZero_write h, hdisplay] at heq
    exact ⟨c, cs, heq, hc⟩
  · rw [dropPointZero_write h, hdisplay] at heq
    exact ⟨c, cs ++ pointZero, heq, hc⟩

/-- The text in a list of tokens, with its exponent written out and without a point and a zero at
the end, is the text in program text. -/
theorem expandedMagnitude?_write {d : Decimal} (h : d = ⟨0, 0⟩ ∨ d.mantissa % 10 ≠ 0) :
    (expandedMagnitude? (d.write .detailed)).map dropPointZero = some (d.write .plain) := by
  have htrim := isTrimmed_of_eq_zero_or h
  have hplain : d.write .plain = d.positional false := rfl
  rw [hplain, write]
  split
  · rw [show Layout.detailed.wholePoint = true from rfl, expandedMagnitude?_positional h,
      Option.map_some, dropPointZero_positional htrim]
  · rw [expandedMagnitude?_scientific, Option.map_some,
      dropPointZero_of_not_suffix (not_suffix_positional htrim)]

end Decimal

variable {x : Float}

theorem source_of_isFinite (h : x.isFinite = true) :
    source x =
      if isNegative x then "(-" ++ String.ofList (writeMagnitude .plain x) ++ ")"
      else String.ofList (writeMagnitude .plain x) := by
  obtain ⟨hnan, hinf⟩ := isFinite_iff.mp h
  rw [source, if_neg (Bool.eq_false_iff.mp hnan), if_neg (Bool.eq_false_iff.mp hinf)]

/-- A text with a minus in front stands in parentheses. -/
def enclosed (text : List Char) : String :=
  if text.head? = some '-' then "(" ++ String.ofList text ++ ")" else String.ofList text

/-- The program text of a finite number is made from its text in a list of tokens: the exponent is
written out, a point and a zero at the end are dropped, and a negation is enclosed. -/
theorem source_of_detailed (h : x.isFinite = true) :
    (expanded? (write .detailed x)).map (fun text => enclosed (dropPointZero text)) =
      some (source x) := by
  obtain ⟨hnan, hinf⟩ := isFinite_iff.mp h
  have hsmall := magnitudeBits_lt hnan hinf
  obtain ⟨text, hexpanded, hplain⟩ := Option.map_eq_some_iff.mp
    (Decimal.expandedMagnitude?_write (Decimal.shortest_eq_zero_or hsmall))
  rw [write_of_isFinite h, source_of_isFinite h, writeMagnitude, writeMagnitude, ← hplain]
  split
  · simp only [expanded?, Numeral.splitSign, hexpanded, Option.map_some, if_true,
      dropPointZero_minus, enclosed, List.head?_cons, Option.some.injEq]
    apply String.toList_inj.mp
    simp
  · obtain ⟨c, cs, hdetailed, hc⟩ := Decimal.write_detailed_head (Decimal.shortest_isTrimmed hsmall)
    obtain ⟨d, ds, hpositional, hd⟩ := (Decimal.shortest x).positional_head
    have htext : (Decimal.shortest x).write .plain = d :: ds := hpositional
    have hsign : d ≠ '-' := by
      rintro rfl
      cases hd
    rw [hdetailed] at hexpanded ⊢
    rw [htext] at hplain
    simp [expanded?, Numeral.splitSign_of_isDigit hc, hexpanded, hplain, enclosed, hsign]

end Number

theorem Value.display_number (x : Float) : (Value.number x).display =
    String.ofList (Number.dropPointZero (Number.write .detailed x)) := by
  rw [Number.dropPointZero_write, display]

end ExprScript
