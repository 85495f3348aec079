import ExprScript.Proofs.EvaluationOrder
import ExprScript.Proofs.Rounding

namespace ExprScript

namespace Number

/-- What a number says about a quantity: its exact value, that it is past all of them on one side,
or nothing. -/
inductive Quantity where
  | rational (q : Rat)
  | infinite (negative : Bool)
  | undefined
deriving DecidableEq

def quantity (x : Float) : Quantity :=
  if x.isNaN then .undefined
  else if x.isInf then .infinite (isNegative x)
  else .rational (if isNegative x then -magnitude x else magnitude x)

variable {x y : Float}

theorem magnitudeBits_of_isInf (h : x.isInf = true) : magnitudeBits x = infinityBits := by
  obtain ⟨s, e, m, hf⟩ := exists_hasFields x
  obtain ⟨rfl, rfl⟩ := hf.isInf_iff.mp h
  exact hf.magnitudeBits_eq

theorem magnitude_eq_zero_iff (hnan : x.isNaN = false) (hinf : x.isInf = false) :
    magnitude x = 0 ↔ magnitudeBits x = 0 := by
  constructor
  · intro h
    rw [← nearestBits_magnitude (magnitudeBits_lt hnan hinf), h]
    rfl
  · intro h
    exact magnitude_eq_zero (by simp [significand, exponentField, h])

theorem quantity_eq_undefined_iff : quantity x = .undefined ↔ x.isNaN = true := by
  unfold quantity
  split
  · rename_i h
    exact iff_of_true rfl h
  · rename_i h
    refine iff_of_false ?_ h
    split <;> nofun

theorem quantity_of_isInf (hnan : x.isNaN = false) (h : x.isInf = true) :
    quantity x = .infinite (isNegative x) := by
  rw [quantity, hnan, if_neg Bool.false_ne_true, if_pos h]

theorem quantity_of_finite (hnan : x.isNaN = false) (hinf : x.isInf = false) :
    quantity x = .rational (if isNegative x then -magnitude x else magnitude x) := by
  rw [quantity, hnan, hinf, if_neg Bool.false_ne_true, if_neg Bool.false_ne_true]

theorem quantity_of_zero (hnan : x.isNaN = false) (h : magnitudeBits x = 0) :
    quantity x = .rational 0 := by
  have hinf : x.isInf = false := by
    rw [Bool.eq_false_iff]
    intro hinf
    rw [magnitudeBits_of_isInf hinf] at h
    cases h
  rw [quantity_of_finite hnan hinf, (magnitude_eq_zero_iff hnan hinf).mpr h, neg_zero, ite_self]

theorem magnitude_nonneg (x : Float) : 0 ≤ magnitude x :=
  Rat.mul_nonneg (Rat.natCast_nonneg) (two_zpow_pos _).le

/-- Numbers that say the same about a quantity are the same, or they are the two zeros. -/
theorem eq_or_zeros (hxnan : x.isNaN = false) (hynan : y.isNaN = false)
    (h : quantity x = quantity y) : x = y ∨ magnitudeBits x = 0 ∧ magnitudeBits y = 0 := by
  have hdetermined := eq_of_magnitudeBits hxnan hynan
  cases hxinf : x.isInf with
  | true =>
    cases hyinf : y.isInf with
    | true =>
      rw [quantity_of_isInf hxnan hxinf, quantity_of_isInf hynan hyinf] at h
      have hbits := (magnitudeBits_of_isInf hxinf).trans (magnitudeBits_of_isInf hyinf).symm
      exact .inl (hdetermined (Quantity.infinite.inj h) hbits)
    | false =>
      rw [quantity_of_isInf hxnan hxinf, quantity_of_finite hynan hyinf] at h
      cases h
  | false =>
    cases hyinf : y.isInf with
    | true =>
      rw [quantity_of_finite hxnan hxinf, quantity_of_isInf hynan hyinf] at h
      cases h
    | false =>
      rw [quantity_of_finite hxnan hxinf, quantity_of_finite hynan hyinf] at h
      have hvalue := Quantity.rational.inj h
      have hxpos := magnitude_nonneg x
      have hypos := magnitude_nonneg y
      by_cases hsign : isNegative x = isNegative y
      · have hmagnitude : magnitude x = magnitude y := by
          rw [hsign] at hvalue
          split at hvalue <;> linarith
        left
        apply hdetermined hsign
        rw [← nearestBits_magnitude (magnitudeBits_lt hxnan hxinf), hmagnitude,
          nearestBits_magnitude (magnitudeBits_lt hynan hyinf)]
      · have hsum : magnitude x + magnitude y = 0 := by
          cases hs : isNegative x with
          | true =>
            have ht : isNegative y = false := by simpa [hs] using hsign
            rw [hs, ht, if_pos rfl, if_neg Bool.false_ne_true] at hvalue
            rw [← hvalue, add_neg_cancel]
          | false =>
            have ht : isNegative y = true := by simpa [hs] using hsign
            rw [hs, ht, if_neg Bool.false_ne_true, if_pos rfl] at hvalue
            rw [hvalue, neg_add_cancel]
        obtain ⟨hx, hy⟩ := (add_eq_zero_iff_of_nonneg hxpos hypos).mp hsum
        exact .inr ⟨(magnitude_eq_zero_iff hxnan hxinf).mp hx,
          (magnitude_eq_zero_iff hynan hyinf).mp hy⟩

/-- Numbers are equal in the language if and only if they say the same about a quantity. -/
theorem same_iff : same x y = true ↔ quantity x = quantity y := by
  rw [same, Bool.or_eq_true, Bool.and_eq_true, beq_iff]
  constructor
  · rintro (⟨hxnan, hynan, rfl | ⟨hx, hy⟩⟩ | ⟨hx, hy⟩)
    · rfl
    · rw [quantity_of_zero hxnan hx, quantity_of_zero hynan hy]
    · rw [quantity_eq_undefined_iff.mpr hx, quantity_eq_undefined_iff.mpr hy]
  · intro h
    cases hxnan : x.isNaN with
    | true =>
      refine .inr ⟨rfl, ?_⟩
      rw [quantity_eq_undefined_iff.mpr hxnan] at h
      exact quantity_eq_undefined_iff.mp h.symm
    | false =>
      have hynan : y.isNaN = false := by
        rw [Bool.eq_false_iff]
        intro hynan
        rw [quantity_eq_undefined_iff.mpr hynan, quantity_eq_undefined_iff, hxnan] at h
        cases h
      exact .inl ⟨rfl, hynan, eq_or_zeros hxnan hynan h⟩

end Number

/-- What equality looks at in a value. -/
inductive Content where
  | nil
  | bool (b : Bool)
  | quantity (q : Number.Quantity)
  | text (s : String)
deriving DecidableEq

namespace Value

def content : Value → Content
  | .nil => .nil
  | .bool b => .bool b
  | .number x => .quantity (Number.quantity x)
  | .text s => .text s

variable {v w : Value}

theorem same_iff_content : v.same w = true ↔ v.content = w.content := by
  cases v <;> cases w <;> simp [same, content, Number.same_iff]

/-- What is on the left and what is on the right does not matter to equality. -/
theorem same_comm (v w : Value) : v.same w = w.same v := by
  rw [Bool.eq_iff_iff, same_iff_content, same_iff_content]
  exact eq_comm

end Value

namespace Expression

theorem evaluate_of_values {left right : Expression} {op : Operator BinaryOp} {b : Bindings}
    {v w : Value} (h : (binary left op right).height ≤ evaluationLimit)
    (hv : left.evaluate b = .ok v) (hw : right.evaluate b = .ok w) :
    (binary left op right).evaluate b = located op.binaryToken (op.op.apply op.lexeme v w) := by
  rw [evaluate_binary h, hv, hw]
  rfl

end Expression

/-- Equality of values is an equivalence that keeps their types apart. It is equality of what the
values say, where numbers say what their quantity is: not-a-number says the same as itself, and the
two zeros say the same. Comparing two expressions that have values for equality and for inequality
gives opposite truth values. -/
theorem equality_lawful :
    (∀ v : Value, v.same v = true) ∧
    (∀ v w : Value, v.same w = w.same v) ∧
    (∀ u v w : Value, u.same v = true → v.same w = true → u.same w = true) ∧
    (∀ v w : Value, v.type ≠ w.type → v.same w = false) ∧
    (∀ v w : Value, v.same w = true ↔ v.content = w.content) ∧
    ∀ (left right : Expression) (b : Bindings) (v w : Value) (equal differs : Operator BinaryOp),
      left.evaluate b = .ok v → right.evaluate b = .ok w →
      equal.op = .equal → differs.op = .notEqual →
      (Expression.binary left equal right).height ≤ Expression.evaluationLimit →
      (Expression.binary left equal right).evaluate b = .ok (.bool (v.same w)) ∧
        (Expression.binary left differs right).evaluate b = .ok (.bool (!v.same w)) := by
  refine ⟨fun v => Value.same_iff_content.mpr rfl, Value.same_comm, fun u v w huv hvw => ?_,
    fun v w => Value.same_of_type_ne, fun v w => Value.same_iff_content, ?_⟩
  · rw [Value.same_iff_content] at huv hvw ⊢
    exact huv.trans hvw
  · intro left right b v w equal differs hv hw hequal hdiffers hheight
    constructor
    · rw [Expression.evaluate_of_values hheight hv hw, hequal]
      rfl
    · have hother : (Expression.binary left differs right).height ≤ Expression.evaluationLimit :=
        hheight
      rw [Expression.evaluate_of_values hother hv hw, hdiffers]
      rfl

/-- Not-a-number equals itself, and a name that has it as its value does too. The zeros are equal,
nothing and false are not. -/
theorem equality_lawful_zeros :
    let nan : Value := .number Number.notANumber
    let zero : Value := .number 0
    let other : Value := .number (-0)
    let x : Expression := .variable ⟨.identifier, "x", .nil, 1⟩
    let equal : Operator BinaryOp := ⟨.equal, "==", .nil, 1⟩
    let differs : Operator BinaryOp := ⟨.notEqual, "!=", .nil, 1⟩
    let b := Bindings.empty.define "x" nan
    nan.same nan = true ∧ zero.same other = true ∧ zero.same zero = true ∧
      Value.nil.same (.bool false) = false ∧
      (Expression.binary x equal x).evaluate b = .ok (.bool true) ∧
      (Expression.binary x differs x).evaluate b = .ok (.bool false) := by
  intro nan zero other x equal differs b
  obtain ⟨hrefl, hcomm, htrans, htypes, -, hevaluate⟩ := equality_lawful
  have hzeros : zero.same other = true := by decide +kernel
  have hvalue : x.evaluate b = .ok nan := by decide +kernel
  obtain ⟨hequal, hdiffers⟩ := hevaluate x x b nan nan equal differs hvalue hvalue rfl rfl
    (by decide)
  rw [hrefl nan] at hequal hdiffers
  exact ⟨hrefl nan, hzeros, htrans zero other zero hzeros (hcomm other zero ▸ hzeros),
    htypes _ _ (by decide), hequal, hdiffers⟩

end ExprScript
