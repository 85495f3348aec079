import ExprScript.Evaluation
import ExprScript.Proofs.Fields

namespace ExprScript.Number

open Float.Model.UnpackedFloat
open Float.Model (Format UnpackedFloat)

variable {x y : Float} {s t : Sign} {e : BitVec 11} {m : BitVec 52}

theorem isNaN_of_magnitudeBits_eq_zero (h : magnitudeBits x = 0) : x.isNaN = false := by
  obtain ⟨s, hx⟩ := magnitudeBits_eq_zero_iff.mp h
  have hf : HasFields x s 0#11 0#52 := hx
  rw [Bool.eq_false_iff, Ne, hf.isNaN_iff]
  exact fun hnan => hnan.2 rfl

/-- A number is equal to zero if it is one of the two zeros. -/
theorem beq_zero_iff : (x == 0) = true ↔ magnitudeBits x = 0 := by
  have hzero : magnitudeBits 0 = 0 := by decide +kernel
  rw [beq_iff]
  constructor
  · rintro ⟨-, -, rfl | ⟨h, -⟩⟩
    · exact hzero
    · exact h
  · intro h
    exact ⟨isNaN_of_magnitudeBits_eq_zero h, by decide +kernel, .inr ⟨h, hzero⟩⟩

theorem HasFields.isNegative_eq (h : HasFields x s e m) : isNegative x = (s == .negative) := by
  rw [Bool.eq_iff_iff, h.isNegative_iff, beq_iff_eq]

/-- A quotient by a zero, from the fields. -/
theorem HasFields.div_zero (hx : HasFields x s e m) (hy : HasFields y t 0#11 0#52) :
    x / y = .ofModel (.pack (UnpackedFloat.div Format.binary64 (ofFields s e m) (.zero t))) := by
  rw [← hx.unpack_eq, show UnpackedFloat.zero t = ofFields t 0#11 0#52 from rfl, ← hy.unpack_eq]
  rfl

theorem nan_div_zero (hx : x.isNaN = true) (hy : magnitudeBits y = 0) : x / y = notANumber := by
  obtain ⟨s, e, m, hf⟩ := exists_hasFields x
  obtain ⟨he, hm⟩ := hf.isNaN_iff.mp hx
  obtain ⟨t, ht⟩ := magnitudeBits_eq_zero_iff.mp hy
  rw [hf.div_zero ht, ofFields, if_pos he, if_neg hm]
  cases t <;> decide +kernel

theorem zero_div_zero (hx : magnitudeBits x = 0) (hy : magnitudeBits y = 0) :
    x / y = notANumber := by
  obtain ⟨s, hs⟩ := magnitudeBits_eq_zero_iff.mp hx
  obtain ⟨t, ht⟩ := magnitudeBits_eq_zero_iff.mp hy
  have hf : HasFields x s 0#11 0#52 := hs
  rw [hf.div_zero ht]
  cases s <;> cases t <;> decide +kernel

/-- Anything else over a zero is infinite, whether it is finite or infinite itself. -/
theorem div_zero (hnan : x.isNaN = false) (hx : magnitudeBits x ≠ 0) (hy : magnitudeBits y = 0) :
    x / y = copySign infinity x * copySign 1 y := by
  obtain ⟨s, e, m, hf, hfields⟩ := exists_hasFields_of_isNaN hnan
  obtain ⟨t, ht⟩ := magnitudeBits_eq_zero_iff.mp hy
  have hg : HasFields y t 0#11 0#52 := ht
  have hinfinite : UnpackedFloat.div Format.binary64 (ofFields s e m) (.zero t) =
      .infinity (s / t) := by
    unfold ofFields
    split
    · rename_i he
      rw [if_pos (hfields.resolve_left fun hne => hne he)]
      rfl
    split
    · rename_i he
      subst he
      have hm : m ≠ 0#52 := by
        rintro rfl
        exact hx (magnitudeBits_eq_zero_iff.mpr ⟨s, hf⟩)
      rw [dif_neg hm]
      rfl
    · rfl
  rw [hf.div_zero ht, hinfinite, copySign, copySign, hf.isNegative_eq, hg.isNegative_eq]
  cases s <;> cases t <;> decide +kernel

/-- Division never fails, and its three cases together are the one quotient that has infinities,
signed zeros and not-a-number. -/
theorem divide?_eq (x y : Float) : divide? x y = some (x / y) := by
  unfold divide?
  split
  · rename_i hy
    have hzero : (y == 0) = false := by simpa [bne] using hy
    rw [quotient?, hzero, if_neg Bool.false_ne_true]
  · rename_i hy
    have hy : magnitudeBits y = 0 := by simpa [bne, ← beq_zero_iff] using hy
    split
    · rename_i hx
      rcases Bool.or_eq_true_iff.mp hx with hx | hx
      · rw [zero_div_zero (beq_zero_iff.mp hx) hy]
      · rw [nan_div_zero hx hy]
    · rename_i hx
      obtain ⟨hx, hnan⟩ := Bool.or_eq_false_iff.mp (Bool.eq_false_iff.mpr hx)
      rw [div_zero hnan (fun h => Bool.eq_false_iff.mp hx (beq_zero_iff.mpr h)) hy]

example : quotient? 1 0 = none ∧ divide? 1 0 = some infinity := by decide +kernel

end ExprScript.Number

namespace ExprScript.BinaryOp

/-- Dividing numbers has a result also where the divisor is zero. -/
theorem apply_divide (lexeme : String) (x y : Float) :
    divide.apply lexeme (.number x) (.number y) = .ok (.number (x / y)) := by
  simp only [apply, numeric?, Number.divide?_eq]

end ExprScript.BinaryOp
