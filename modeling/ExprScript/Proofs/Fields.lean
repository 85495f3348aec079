import ExprScript.Number.Binary64
import Mathlib

namespace ExprScript.Number

open Float.Model.UnpackedFloat
open Float.Model (Format UnpackedFloat)

/-- The number that the fields of its bits stand for. -/
def ofFields (s : Sign) (e : BitVec 11) (m : BitVec 52) : UnpackedFloat :=
  if e = -1#11 then if m = 0#52 then .infinity s else .notANumber
  else if e = 0#11 then
    if h : m = 0#52 then .zero s
    else .finite s m.toNat (-1074) (Nat.pos_of_ne_zero fun hm => h (BitVec.eq_of_toNat_eq hm))
  else .finite s (2 ^ 52 + m.toNat) (e.toNat - 1075) (by omega)

theorem toNat_fields (s : Sign) (e : BitVec 11) (m : BitVec 52) :
    (packComponents Format.binary64 s e m).toNat =
      s.toBitVec.toNat * 2 ^ 63 + e.toNat * 2 ^ 52 + m.toNat := by
  have he : e.toNat < 2 ^ 11 := e.isLt
  have hm : m.toNat < 2 ^ 52 := m.isLt
  rw [packComponents, BitVec.toNat_append, ← Nat.shiftLeft_add_eq_or_of_lt hm,
    BitVec.toNat_append, ← Nat.shiftLeft_add_eq_or_of_lt he, Nat.shiftLeft_eq, Nat.shiftLeft_eq]
  omega

/-- Bits are determined by their fields. -/
theorem exists_fields (b : BitVec 64) : ∃ s e m, b = packComponents Format.binary64 s e m := by
  have hb : b.toNat < 2 ^ 64 := b.isLt
  refine ⟨if b.toNat < 2 ^ 63 then .positive else .negative, .ofNat 11 (b.toNat / 2 ^ 52),
    .ofNat 52 b.toNat, BitVec.eq_of_toNat_eq ?_⟩
  rw [toNat_fields, BitVec.toNat_ofNat, BitVec.toNat_ofNat]
  split <;> simp [Sign.toBitVec] <;> omega

theorem unpackSign_packComponents (s : Sign) (e : BitVec 11) (m : BitVec 52) :
    unpackSign (packComponents Format.binary64 s e m) = s.toBitVec := by
  have he : e.toNat < 2 ^ 11 := e.isLt
  have hm : m.toNat < 2 ^ 52 := m.isLt
  have hs : s.toBitVec.toNat < 2 := s.toBitVec.isLt
  apply BitVec.eq_of_toNat_eq
  simp only [unpackSign, BitVec.extractLsb, BitVec.toNat_cast, BitVec.extractLsb'_toNat,
    toNat_fields, Nat.shiftRight_eq_div_pow]
  omega

theorem unpack_fields (s : Sign) (e : BitVec 11) (m : BitVec 52) :
    UnpackedFloat.unpack Format.binary64 (packComponents Format.binary64 s e m) =
      ofFields s e m := by
  have hs : Sign.ofBitVec s.toBitVec = s := by cases s <;> rfl
  have hm : (1#1 ++ m).toNat = 2 ^ 52 + m.toNat := by
    rw [BitVec.toNat_append, ← Nat.shiftLeft_add_eq_or_of_lt m.isLt]
    rfl
  have hbias : (Format.binary64.exponentBias : Int) = 1023 := rfl
  unfold UnpackedFloat.unpack ofFields
  simp only [unpackMantissa_packComponents, unpackExponent_packComponents,
    unpackSign_packComponents, hs, hm, hbias]
  split
  · rfl
  split
  · rename_i he
    subst he
    rfl
  · congr 1

theorem pack_fields {s : Sign} {e : BitVec 11} {m : BitVec 52} (h : e ≠ -1#11 ∨ m = 0#52) :
    UnpackedFloat.pack Format.binary64 (ofFields s e m) =
      packComponents Format.binary64 s e m := by
  unfold ofFields
  split
  · rename_i he
    obtain rfl := h.resolve_left fun hne => hne he
    rw [if_pos rfl, he]
    rfl
  split
  · rename_i he
    subst he
    split
    · rename_i hm
      subst hm
      rfl
    · rename_i hne hm
      have hpos : m.toNat ≠ 0 := fun h0 => hm (BitVec.eq_of_toNat_eq h0)
      have hlog : m.toNat.log2 < 52 := (Nat.log2_lt hpos).mpr m.isLt
      simp only [UnpackedFloat.pack]
      rw [if_neg (by decide), if_neg (by simp [Format.mantissaBits]; omega), BitVec.ofNat_toNat,
        BitVec.setWidth_eq]
  · rename_i hinf hzero
    have hlt : e.toNat < 2047 := by
      have hne : e.toNat ≠ 2047 := fun h0 => hinf (BitVec.eq_of_toNat_eq h0)
      have hmax : e.toNat < 2 ^ 11 := e.isLt
      omega
    have hlog : (2 ^ 52 + m.toNat).log2 = 52 := by
      have hm : m.toNat < 2 ^ 52 := m.isLt
      exact (Nat.log2_eq_iff (by omega)).mpr ⟨by omega, by omega⟩
    have hbiased : ((e.toNat : Int) - 1075 + (Format.binary64.exponentBias : Nat) +
        (Format.binary64.mantissaBitsWithoutImplicit : Nat)).toNat = e.toNat := by
      have hbias : Format.binary64.exponentBias = 1023 := rfl
      simp only [hbias]
      omega
    simp only [UnpackedFloat.pack]
    rw [hbiased, if_neg (by simp; omega), hlog,
      if_pos (show 52 + 1 = Format.binary64.mantissaBits from rfl), BitVec.ofNat_toNat,
      BitVec.setWidth_eq]
    congr 1
    apply BitVec.eq_of_toNat_eq
    have hm : m.toNat < 2 ^ 52 := m.isLt
    simp
    omega

theorem neg_fields (s : Sign) (e : BitVec 11) (m : BitVec 52) :
    (ofFields s e m).neg = ofFields (-s) e m := by
  unfold ofFields
  split
  · split <;> rfl
  split
  · split <;> rfl
  · rfl

/-- The bits of a number have these fields. -/
def HasFields (x : Float) (s : Sign) (e : BitVec 11) (m : BitVec 52) : Prop :=
  x.toBits.toBitVec = packComponents Format.binary64 s e m

/-- The number with a clear sign bit. -/
def unsigned (x : Float) : Float := .ofBits (.ofNat (magnitudeBits x))

namespace HasFields

variable {x : Float} {s : Sign} {e : BitVec 11} {m : BitVec 52}

theorem unpack_eq (h : HasFields x s e m) : x.toModel.unpack = ofFields s e m := by
  rw [← unpack_fields, ← h]
  rfl

theorem toNat_toBits (h : HasFields x s e m) :
    x.toBits.toNat = s.toBitVec.toNat * 2 ^ 63 + e.toNat * 2 ^ 52 + m.toNat := by
  rw [← toNat_fields, ← h]
  rfl

theorem magnitudeBits_eq (h : HasFields x s e m) :
    magnitudeBits x = e.toNat * 2 ^ 52 + m.toNat := by
  have he : e.toNat < 2 ^ 11 := e.isLt
  have hm : m.toNat < 2 ^ 52 := m.isLt
  rw [magnitudeBits, h.toNat_toBits, signBit]
  omega

theorem isNegative_iff (h : HasFields x s e m) : isNegative x = true ↔ s = .negative := by
  have he : e.toNat < 2 ^ 11 := e.isLt
  have hm : m.toNat < 2 ^ 52 := m.isLt
  rw [isNegative, h.toNat_toBits, signBit, decide_eq_true_iff]
  cases s <;> simp [Sign.toBitVec] <;> omega

theorem isNaN_iff (h : HasFields x s e m) : x.isNaN = true ↔ e = -1#11 ∧ m ≠ 0#52 := by
  rw [Float.isNaN, Float.Model.isNaN, h.unpack_eq, ofFields]
  split
  · rename_i he
    split <;> simp_all [UnpackedFloat.isNaN]
  split
  · split <;> simp_all [UnpackedFloat.isNaN]
  · simp_all [UnpackedFloat.isNaN]

theorem isInf_iff (h : HasFields x s e m) : x.isInf = true ↔ e = -1#11 ∧ m = 0#52 := by
  rw [Float.isInf, Float.Model.isInf, h.unpack_eq, ofFields]
  split
  · rename_i he
    split <;> simp_all [UnpackedFloat.isInf]
  split
  · split <;> simp_all [UnpackedFloat.isInf]
  · simp_all [UnpackedFloat.isInf]

theorem isFinite_iff (h : HasFields x s e m) : x.isFinite = true ↔ e ≠ -1#11 := by
  rw [Float.isFinite, Float.Model.isFinite, h.unpack_eq, ofFields]
  split
  · rename_i he
    split <;> simp_all [UnpackedFloat.isFinite]
  split
  · split <;> simp_all [UnpackedFloat.isFinite]
  · simp_all [UnpackedFloat.isFinite]

end HasFields

theorem exists_hasFields (x : Float) : ∃ s e m, HasFields x s e m := exists_fields x.toBits.toBitVec

/-- A number is determined by its bits. -/
theorem eq_of_toBits {x y : Float} (h : x.toBits = y.toBits) : x = y := by
  obtain ⟨⟨b, hb⟩⟩ := x
  obtain ⟨⟨c, hc⟩⟩ := y
  obtain rfl : b = c := h
  rfl

/-- What is packed from fields that are not those of not-a-number has these fields. -/
theorem hasFields_ofModel_pack {s : Sign} {e : BitVec 11} {m : BitVec 52}
    (h : e ≠ -1#11 ∨ m = 0#52) : HasFields (.ofModel (.pack (ofFields s e m))) s e m :=
  pack_fields h

theorem unsigned_eq {x : Float} {s : Sign} {e : BitVec 11} {m : BitVec 52}
    (h : HasFields x s e m) : unsigned x = .ofModel (.pack (ofFields .positive e m)) := by
  have hb : (UInt64.ofNat (magnitudeBits x)).toBitVec =
      packComponents Format.binary64 .positive e m := by
    apply BitVec.eq_of_toNat_eq
    have he : e.toNat < 2 ^ 11 := e.isLt
    have hm : m.toNat < 2 ^ 52 := m.isLt
    have hsize : e.toNat * 2 ^ 52 + m.toNat < 2 ^ 64 := by omega
    have hsign : Sign.positive.toBitVec.toNat = 0 := rfl
    rw [toNat_fields, hsign, Nat.zero_mul, Nat.zero_add, h.magnitudeBits_eq, UInt64.toNat_toBitVec,
      UInt64.toNat_ofNat', Nat.mod_eq_of_lt hsize]
  rw [unsigned, Float.ofBits, Float.Model.ofBits, hb, unpack_fields]

/-- Negation changes the sign bit alone. -/
theorem HasFields.neg {x : Float} {s : Sign} {e : BitVec 11} {m : BitVec 52}
    (h : HasFields x s e m) (hx : e ≠ -1#11 ∨ m = 0#52) : HasFields (-x) (-s) e m := by
  have hneg : -x = .ofModel (.pack (ofFields (-s) e m)) := by
    rw [← neg_fields, ← h.unpack_eq]
    rfl
  rw [hneg]
  exact hasFields_ofModel_pack hx

theorem HasFields.unsigned {x : Float} {s : Sign} {e : BitVec 11} {m : BitVec 52}
    (h : HasFields x s e m) (hx : e ≠ -1#11 ∨ m = 0#52) :
    HasFields (unsigned x) .positive e m := by
  rw [unsigned_eq h]
  exact hasFields_ofModel_pack hx

theorem eq_of_hasFields {x y : Float} {s : Sign} {e : BitVec 11} {m : BitVec 52}
    (hx : HasFields x s e m) (hy : HasFields y s e m) : x = y :=
  eq_of_toBits (UInt64.eq_of_toBitVec_eq (hx.trans hy.symm))

theorem exists_hasFields_of_isNaN {x : Float} (hnan : x.isNaN = false) :
    ∃ s e m, HasFields x s e m ∧ (e ≠ -1#11 ∨ m = 0#52) := by
  obtain ⟨s, e, m, hf⟩ := exists_hasFields x
  refine ⟨s, e, m, hf, ?_⟩
  by_cases hm : m = 0#52
  · exact .inr hm
  · left
    intro he
    rw [hf.isNaN_iff.mpr ⟨he, hm⟩] at hnan
    cases hnan

/-- A number that is not negative is its own magnitude. -/
theorem unsigned_eq_self {x : Float} (hnan : x.isNaN = false) (h : isNegative x = false) :
    unsigned x = x := by
  obtain ⟨s, e, m, hf, hx⟩ := exists_hasFields_of_isNaN hnan
  obtain rfl : s = .positive := by
    cases s with
    | positive => rfl
    | negative =>
      rw [hf.isNegative_iff.mpr rfl] at h
      cases h
  exact eq_of_hasFields (hf.unsigned hx) hf

/-- A negative number is the opposite of its magnitude. -/
theorem neg_unsigned {x : Float} (hnan : x.isNaN = false) (h : isNegative x = true) :
    -unsigned x = x := by
  obtain ⟨s, e, m, hf, hx⟩ := exists_hasFields_of_isNaN hnan
  obtain rfl := hf.isNegative_iff.mp h
  exact eq_of_hasFields ((hf.unsigned hx).neg hx) hf

/-- A number is determined by its magnitude and its sign. -/
theorem eq_of_magnitudeBits {x y : Float} (hxnan : x.isNaN = false) (hynan : y.isNaN = false)
    (hsign : isNegative x = isNegative y) (h : magnitudeBits x = magnitudeBits y) : x = y := by
  have hunsigned : unsigned x = unsigned y := by rw [unsigned, h, unsigned]
  cases hs : isNegative x with
  | true =>
    have ht : isNegative y = true := by rw [← hsign, hs]
    rw [← neg_unsigned hxnan hs, ← neg_unsigned hynan ht, hunsigned]
  | false =>
    have ht : isNegative y = false := by rw [← hsign, hs]
    rw [← unsigned_eq_self hxnan hs, ← unsigned_eq_self hynan ht, hunsigned]

theorem magnitudeBits_neg {x : Float} (hnan : x.isNaN = false) :
    magnitudeBits (-x) = magnitudeBits x := by
  obtain ⟨s, e, m, hf, hx⟩ := exists_hasFields_of_isNaN hnan
  rw [(hf.neg hx).magnitudeBits_eq, hf.magnitudeBits_eq]

theorem isNegative_neg {x : Float} (hnan : x.isNaN = false) (h : isNegative x = true) :
    isNegative (-x) = false := by
  obtain ⟨s, e, m, hf, hx⟩ := exists_hasFields_of_isNaN hnan
  obtain rfl := hf.isNegative_iff.mp h
  rw [Bool.eq_false_iff, Ne, (hf.neg hx).isNegative_iff]
  exact fun hs => nomatch hs

/-- The finite numbers are those that are neither infinite nor not-a-number. -/
theorem isFinite_iff {x : Float} : x.isFinite = true ↔ x.isNaN = false ∧ x.isInf = false := by
  obtain ⟨s, e, m, hf⟩ := exists_hasFields x
  rw [Bool.eq_false_iff, Bool.eq_false_iff, Ne, Ne, hf.isFinite_iff, hf.isNaN_iff, hf.isInf_iff]
  tauto

theorem isFinite_neg {x : Float} (h : x.isFinite = true) : (-x).isFinite = true := by
  obtain ⟨s, e, m, hf⟩ := exists_hasFields x
  have he := hf.isFinite_iff.mp h
  exact (hf.neg (.inl he)).isFinite_iff.mpr he

theorem eq_notANumber {x : Float} (h : x.isNaN = true) : x = notANumber := by
  obtain ⟨s, e, m, hf⟩ := exists_hasFields x
  obtain ⟨he, hm⟩ := hf.isNaN_iff.mp h
  have hb : x.toBits.toBitVec = packedNaN Format.binary64 := by
    apply x.toModel.valid.eq_packedNaN
    · rw [show x.toModel.toBits.toBitVec = packComponents Format.binary64 s e m from hf,
        unpackExponent_packComponents, he]
    · rwa [show x.toModel.toBits.toBitVec = packComponents Format.binary64 s e m from hf,
        unpackMantissa_packComponents]
  exact eq_of_toBits (UInt64.eq_of_toBitVec_eq hb)

theorem eq_infinity {x : Float} (h : x.isInf = true) :
    x = if isNegative x then -infinity else infinity := by
  obtain ⟨s, e, m, hf⟩ := exists_hasFields x
  obtain ⟨rfl, rfl⟩ := hf.isInf_iff.mp h
  have hpositive : HasFields infinity .positive (-1#11) 0#52 := rfl
  have hnegative : HasFields (-infinity) .negative (-1#11) 0#52 := rfl
  split
  · rename_i hs
    obtain rfl := hf.isNegative_iff.mp hs
    exact eq_of_hasFields hf hnegative
  · rename_i hs
    cases s with
    | negative => exact absurd (hf.isNegative_iff.mpr rfl) hs
    | positive => exact eq_of_hasFields hf hpositive

/-- The magnitudes of finite numbers come before infinity. -/
theorem magnitudeBits_lt {x : Float} (hnan : x.isNaN = false) (hinf : x.isInf = false) :
    magnitudeBits x < infinityBits := by
  obtain ⟨s, e, m, hf, hx⟩ := exists_hasFields_of_isNaN hnan
  have hmax : e.toNat ≠ 2047 := by
    intro he
    have hone : e = -1#11 := BitVec.eq_of_toNat_eq he
    have hm := hx.resolve_left fun hne => hne hone
    rw [hf.isInf_iff.mpr ⟨hone, hm⟩] at hinf
    cases hinf
  have he : e.toNat < 2 ^ 11 := e.isLt
  have hm : m.toNat < 2 ^ 52 := m.isLt
  rw [hf.magnitudeBits_eq, infinityBits]
  omega

variable {x y : Float}

theorem isNaN_iff_packed :
    x.isNaN = true ↔ x.toModel.toBits.toBitVec = packedNaN Format.binary64 := by
  constructor
  · intro h
    rw [eq_notANumber h]
    rfl
  · intro h
    have hf : HasFields x .positive (-1#11) (1#52 <<< 51) := h
    exact hf.isNaN_iff.mpr ⟨rfl, by decide⟩

/-- The zeros are the two numbers with no bit set but that of the sign. -/
theorem magnitudeBits_eq_zero_iff :
    magnitudeBits x = 0 ↔ ∃ s, x.toModel.toBits.toBitVec = packedZero Format.binary64 s := by
  constructor
  · intro h
    obtain ⟨s, e, m, hf⟩ := exists_hasFields x
    rw [hf.magnitudeBits_eq] at h
    obtain rfl : e = 0#11 := BitVec.eq_of_toNat_eq (show e.toNat = 0 by omega)
    obtain rfl : m = 0#52 := BitVec.eq_of_toNat_eq (show m.toNat = 0 by omega)
    exact ⟨s, hf⟩
  · rintro ⟨s, h⟩
    have hf : HasFields x s 0#11 0#52 := h
    exact hf.magnitudeBits_eq

/-- Comparing numbers for equality compares bits, but the zeros are equal and not-a-number equals
nothing. -/
theorem beq_iff : (x == y) = true ↔ x.isNaN = false ∧ y.isNaN = false ∧
    (x = y ∨ magnitudeBits x = 0 ∧ magnitudeBits y = 0) := by
  have hbits : (x == y) = true ↔ _ :=
    unpack_beq_unpack_iff x.toModel.valid y.toModel.valid (by decide)
  have heq : x.toModel.toBits.toBitVec = y.toModel.toBits.toBitVec ↔ x = y :=
    ⟨fun h => eq_of_toBits (UInt64.eq_of_toBitVec_eq h), fun h => h ▸ rfl⟩
  rw [hbits, ← Bool.not_eq_true, ← Bool.not_eq_true, isNaN_iff_packed, isNaN_iff_packed,
    magnitudeBits_eq_zero_iff, magnitudeBits_eq_zero_iff, heq]
  refine and_congr_right' (and_congr_right' ⟨?_, ?_⟩)
  · rintro (h | ⟨hx, hy⟩ | ⟨hx, hy⟩)
    · exact .inl h
    · exact .inr ⟨⟨_, hx⟩, _, hy⟩
    · exact .inr ⟨⟨_, hx⟩, _, hy⟩
  · rintro (h | ⟨⟨s, hx⟩, t, hy⟩)
    · exact .inl h
    · by_cases hst : s = t
      · exact .inl (heq.mp (hx.trans (hst ▸ hy.symm)))
      · cases s with
        | positive =>
          cases t with
          | positive => exact absurd rfl hst
          | negative => exact .inr (.inl ⟨hx, hy⟩)
        | negative =>
          cases t with
          | positive => exact .inr (.inr ⟨hx, hy⟩)
          | negative => exact absurd rfl hst

end ExprScript.Number
