import ExprScript.Proofs.LongestLexemes
import ExprScript.Proofs.SourceReading
import ExprScript.Proofs.WrittenNumbers

namespace ExprScript

namespace Number

/-- A numeral stands for one token alone, with the number that it is read as. -/
theorem scan_pointed {whole fraction : List Char} (h : AreDigits whole fraction) {x : Float}
    (hx : Numeral.read? (pointed whole fraction) = some x) {text : String}
    (htext : text.toList = pointed whole fraction) :
    scan text = ⟨[⟨.number, text, .value (.number x), 1⟩, .ending 1], []⟩ := by
  obtain rfl : (spelledDecimal whole fraction).toFloat false = x :=
    Option.some.inj ((Numeral.read?_pointed h).symm.trans hx)
  have hline : newlines (pointed whole fraction) = 0 := by
    refine List.count_eq_zero.mpr fun hmem => ?_
    rcases Numeral.isPlain_of_mem_pointed h _ hmem with hdigit | hpoint
    · cases hdigit
    · cases hpoint
  have hfound := (Lexeme.numeral h).segments_eq
  rw [← htext] at hfound hline
  rw [scan_eq, hfound, tokensOf_cons, errorsOf_cons, tokensOf_nil, errorsOf_nil, hline]
  simp [Segment.token?, Segment.problem?]

/-- A finite number whose sign bit is clear is written as a numeral, which is read as that number
and has no zero at the end of its fraction. -/
theorem source_of_not_negative {x : Float} (h : x.isFinite = true) (hs : isNegative x = false) :
    ∃ whole fraction, AreDigits whole fraction ∧ (source x).toList = pointed whole fraction ∧
      fraction.getLast? ≠ some '0' ∧
      scan (source x) = ⟨[⟨.number, source x, .value (.number x), 1⟩, .ending 1], []⟩ := by
  obtain ⟨hnan, hinf⟩ := isFinite_iff.mp h
  obtain ⟨whole, fraction, hdigits, hwrite, hread, hlast⟩ :=
    exists_writeMagnitude (magnitudeBits_lt hnan hinf)
  have htext : (source x).toList = pointed whole fraction := by
    simp [source_of_isFinite h, hs, hwrite]
  rw [unsigned_eq_self hnan hs] at hread
  exact ⟨whole, fraction, hdigits, htext, hlast, scan_pointed hdigits hread htext⟩

/-- A finite number whose sign bit is set is written as the negation of its opposite. -/
theorem source_of_negative {x : Float} (h : x.isFinite = true) (hs : isNegative x = true) :
    (-x).isFinite = true ∧ isNegative (-x) = false ∧ source x = "(-" ++ source (-x) ++ ")" := by
  obtain ⟨hnan, -⟩ := isFinite_iff.mp h
  have hpositive := isNegative_neg hnan hs
  refine ⟨isFinite_neg h, hpositive, ?_⟩
  rw [source_of_isFinite h, source_of_isFinite (isFinite_neg h), hs, hpositive,
    writeMagnitude_congr (magnitudeBits_neg hnan)]
  rfl

/-- The tree of the source text of a number keeps to all depths. -/
theorem depths_sourceTree (x : Float) :
    (sourceTree x).height ≤ Expression.evaluationLimit ∧
      (sourceTree x).nesting ≤ Grammar.nestingLimit := by
  unfold sourceTree
  split
  · decide
  split
  · split <;> decide
  split <;> simp [Expression.height, Expression.nesting, Expression.evaluationLimit,
    Grammar.groupCost, Grammar.nestingLimit]

/-- The source text of any number is scanned without an error and parsed as an expression that
evaluates to that number, whatever is bound. -/
theorem evaluate_source (x : Float) :
    (scan (source x)).errors = [] ∧
      ∃ e last, Grammar.wholeExpression (scan (source x)).tokens = ⟨.ok e, [.ending last]⟩ ∧
        ∀ b, e.evaluate b = .ok (.number x) := by
  obtain ⟨hheight, hnesting⟩ := depths_sourceTree x
  obtain ⟨text, e, last, htext, hclean, hread, he⟩ :=
    Expression.wholeExpression_source (e := .literal (.number x)) trivial
      (Nat.succ_pos _) hnesting
  obtain rfl : source x = text := Except.ok.inj htext
  refine ⟨hclean, e, last, hread, fun b => ?_⟩
  have he : e.unplaced = sourceTree x := he
  have hvalue : e.value b = .ok (.number x) := by
    rw [← Expression.gist_eq_ok, ← e.gist_unplaced b, he, Expression.gist_eq_ok,
      Expression.value_sourceTree]
  have hlow : e.height ≤ Expression.evaluationLimit := by rwa [← e.height_unplaced, he]
  rw [Expression.evaluate, Expression.evaluateWithin_eq b hlow, hvalue]
  rfl

end Number

/-- Every number survives being written as source text. A finite one whose sign bit is clear is
digits, with a point inside only where a fraction follows that does not end in a zero, and scanning
these gives one token with that very number, the end mark and no error. A finite one whose sign bit
is set is the negation of its opposite in parentheses. The text of any number, infinite ones and
not-a-number included, is parsed and evaluated to that very number. -/
theorem number_survives_source (x : Float) :
    ∃ text, (Value.number x).source = .ok text ∧
      (x.isFinite = true → Number.isNegative x = false →
        ∃ whole fraction, Number.AreDigits whole fraction ∧
          text.toList = Number.pointed whole fraction ∧ fraction.getLast? ≠ some '0' ∧
          scan text = ⟨[⟨.number, text, .value (.number x), 1⟩, .ending 1], []⟩) ∧
      (x.isFinite = true → Number.isNegative x = true →
        ∃ opposite, (Value.number (-x)).source = .ok opposite ∧ text = "(-" ++ opposite ++ ")" ∧
          (-x).isFinite = true ∧ Number.isNegative (-x) = false) ∧
      (scan text).errors = [] ∧
      ∃ e last, Grammar.wholeExpression (scan text).tokens = ⟨.ok e, [.ending last]⟩ ∧
        ∀ b, e.evaluate b = .ok (.number x) := by
  refine ⟨Number.source x, rfl, fun h hs => Number.source_of_not_negative h hs, fun h hs => ?_,
    Number.evaluate_source x⟩
  obtain ⟨hfinite, hpositive, htext⟩ := Number.source_of_negative h hs
  exact ⟨Number.source (-x), rfl, htext, hfinite, hpositive⟩

/-- A large number in digits alone, and negative zero. -/
theorem number_survives_source_large :
    (∃ text, (Value.number 1e22).source = .ok text ∧
      scan text = ⟨[⟨.number, text, .value (.number 1e22), 1⟩, .ending 1], []⟩) ∧
    ∃ text opposite, (Value.number (-0.0)).source = .ok text ∧
      (Value.number 0.0).source = .ok opposite ∧ text = "(-" ++ opposite ++ ")" := by
  constructor
  · obtain ⟨text, htext, hpositive, -⟩ := number_survives_source 1e22
    obtain ⟨whole, fraction, -, -, -, hscan⟩ := hpositive (by decide +kernel) (by decide +kernel)
    exact ⟨text, htext, hscan⟩
  · obtain ⟨text, htext, -, hnegative, -⟩ := number_survives_source (-0.0)
    obtain ⟨opposite, hopposite, hparts, -⟩ := hnegative (by decide +kernel) (by decide +kernel)
    have hzero : -(-0.0 : Float) = 0.0 := by decide +kernel
    rw [hzero] at hopposite
    exact ⟨text, opposite, htext, hopposite, hparts⟩

end ExprScript
