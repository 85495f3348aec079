import ExprScript.Proofs.Fields

namespace ExprScript.Number

theorem two_zpow_pos (k : Int) : (0 : Rat) < 2 ^ k := Rat.zpow_pos (by decide)

theorem two_zpow_le {j k : Int} (h : j ≤ k) : (2 : Rat) ^ j ≤ 2 ^ k := by
  obtain ⟨n, rfl⟩ := Int.le.dest h
  have hone : (1 : Rat) ≤ 2 ^ n := by
    have hn : 1 ≤ 2 ^ n := Nat.one_le_two_pow
    exact_mod_cast hn
  have hj := two_zpow_pos j
  rw [Rat.zpow_add (by decide), Rat.zpow_natCast]
  have hmul := Rat.mul_le_mul_of_nonneg_left hone (Rat.le_of_lt hj)
  rwa [Rat.mul_one] at hmul

theorem two_zpow_log2_le {n : Nat} (hn : n ≠ 0) : (2 : Rat) ^ (n.log2 : Int) ≤ n := by
  have h : 2 ^ n.log2 ≤ n := Nat.log2_self_le hn
  rw [Rat.zpow_natCast]
  exact_mod_cast h

theorem succ_le_two_zpow_log2 (n : Nat) : (n : Rat) + 1 ≤ 2 ^ ((n.log2 : Int) + 1) := by
  have h : n + 1 ≤ 2 ^ (n.log2 + 1) := Nat.lt_log2_self
  have hcast : (n.log2 : Int) + 1 = (n.log2 + 1 : Nat) := rfl
  rw [hcast, Rat.zpow_natCast]
  exact_mod_cast h

/-- The order of a number from one on is that of its whole part. -/
theorem binaryOrder_of_one_le {q : Rat} (hq : 1 ≤ q) :
    2 ^ binaryOrder q ≤ q ∧ q < 2 ^ (binaryOrder q + 1) := by
  have hfloor : 1 ≤ q.floor := Rat.le_floor_iff.mpr hq
  obtain ⟨n, hn⟩ := Int.eq_ofNat_of_zero_le (Int.le_trans (by decide) hfloor)
  have hbelow : (n : Rat) ≤ q := by
    have h := Rat.floor_le q
    rwa [hn] at h
  have habove : q < n + 1 := by
    have h := Rat.lt_floor_add_one q
    rw [hn] at h
    exact_mod_cast h
  rw [binaryOrder, if_pos hq, hn, Int.toNat_natCast]
  constructor
  · exact Rat.le_trans (two_zpow_log2_le (by omega)) hbelow
  · have hpow := succ_le_two_zpow_log2 n
    grind

/-- The order of a number below one comes from the whole numbers around its inverse. -/
theorem binaryOrder_of_lt_one {q : Rat} (hq : 0 < q) (h : q < 1) :
    2 ^ binaryOrder q ≤ q ∧ q < 2 ^ (binaryOrder q + 1) := by
  have hinv : q * q⁻¹ = 1 := Rat.mul_inv_cancel q (Rat.ne_of_lt hq).symm
  have hone : 1 < q⁻¹ := by
    apply Rat.lt_of_mul_lt_mul_left (c := q) _ (Rat.le_of_lt hq)
    rwa [hinv, Rat.mul_one]
  -- The inverse lies between `n` and `n + 1`, whose order is that of `q` with its sign changed.
  have hceil : 1 < q⁻¹.ceil := Rat.lt_ceil_iff.mpr hone
  obtain ⟨n, hn⟩ : ∃ n : Nat, q⁻¹.ceil = n + 1 := ⟨q⁻¹.ceil.toNat - 1, by omega⟩
  have hbelow : (n : Rat) < q⁻¹ := by
    have hlt : (n : Int) < q⁻¹.ceil := by omega
    exact Rat.lt_ceil_iff.mp hlt
  have habove : q⁻¹ ≤ n + 1 := by
    have hle := Rat.le_ceil (x := q⁻¹)
    rw [hn] at hle
    exact_mod_cast hle
  have hlow := two_zpow_log2_le (show n ≠ 0 by omega)
  have hhigh := succ_le_two_zpow_log2 n
  have hexponent : (q⁻¹.ceil.toNat - 1).log2 = n.log2 := by
    rw [hn]
    rfl
  rw [binaryOrder, if_neg (Rat.not_le.mpr h), hexponent]
  have hshift : -((n.log2 : Int) + 1) + 1 = -n.log2 := by omega
  rw [hshift, Rat.zpow_neg, Rat.zpow_neg]
  have hpos := two_zpow_pos n.log2
  generalize (2 : Rat) ^ (n.log2 : Int) = low, (2 : Rat) ^ ((n.log2 : Int) + 1) = high at *
  constructor
  · have hhighpos : 0 < high := by grind
    apply Rat.le_of_mul_le_mul_right (c := high) _ hhighpos
    rw [Rat.inv_mul_cancel _ (Rat.ne_of_lt hhighpos).symm, ← hinv]
    exact Rat.mul_le_mul_of_nonneg_left (Rat.le_trans habove hhigh) (Rat.le_of_lt hq)
  · apply Rat.lt_of_mul_lt_mul_right (c := low) _ (Rat.le_of_lt hpos)
    rw [Rat.inv_mul_cancel _ (Rat.ne_of_lt hpos).symm, ← hinv]
    have hlt : low < q⁻¹ := by grind
    exact Rat.mul_lt_mul_of_pos_left hlt hq

/-- The order of a positive number is the exponent of the power of two at or below it. -/
theorem binaryOrder_spec {q : Rat} (hq : 0 < q) :
    2 ^ binaryOrder q ≤ q ∧ q < 2 ^ (binaryOrder q + 1) := by
  by_cases h : 1 ≤ q
  · exact binaryOrder_of_one_le h
  · exact binaryOrder_of_lt_one hq (Rat.not_le.mp h)

theorem le_binaryOrder {q : Rat} (hq : 0 < q) {k : Int} (h : 2 ^ k ≤ q) : k ≤ binaryOrder q := by
  have hlt := (binaryOrder_spec hq).2
  rcases Int.lt_or_le (binaryOrder q) k with hk | hk
  · have hle := two_zpow_le (show binaryOrder q + 1 ≤ k from hk)
    grind
  · exact hk

theorem binaryOrder_lt {q : Rat} (hq : 0 < q) {k : Int} (h : q < 2 ^ k) : binaryOrder q < k := by
  have hle := (binaryOrder_spec hq).1
  rcases Int.lt_or_le (binaryOrder q) k with hk | hk
  · exact hk
  · have hpow := two_zpow_le hk
    grind

theorem roundHalfEven_natCast (n : Nat) : roundHalfEven n = n := by
  have hfloor : (n : Rat).floor = n := Rat.floor_intCast n
  have hexcess : (n : Rat) - ((n : Rat).floor : Rat) = 0 := by
    rw [hfloor, Rat.intCast_natCast]
    grind
  unfold roundHalfEven
  simp only [hexcess]
  rw [if_pos (by grind), hfloor]

/-- The significand fills its places, unless the exponent field is at its lowest. -/
theorem significand_bounds (x : Float) :
    significand x < 2 ^ 53 ∧ (-1074 < place x → 2 ^ 52 ≤ significand x) := by
  unfold significand place
  have hlt : magnitudeBits x % fieldBit < 2 ^ 52 := Nat.mod_lt _ (by decide)
  have hbit : fieldBit = 2 ^ 52 := rfl
  split <;> omega

/-- The place of the last bit follows from the size of a finite number. -/
theorem lastPlace_magnitude {x : Float} (hx : 0 < significand x) :
    lastPlace (magnitude x) = place x := by
  have hpos : (0 : Rat) < significand x := Rat.natCast_pos.mpr hx
  have hq : 0 < magnitude x := Rat.mul_pos hpos (two_zpow_pos _)
  obtain ⟨hlt, hle⟩ := significand_bounds x
  have hplace : -1074 ≤ place x := by
    unfold place
    omega
  have hhigh : binaryOrder (magnitude x) < 53 + place x := by
    apply binaryOrder_lt hq
    have hcast : (significand x : Rat) < 2 ^ 53 := by exact_mod_cast hlt
    rw [Rat.zpow_add (by decide)]
    exact Rat.mul_lt_mul_of_pos_right hcast (two_zpow_pos _)
  unfold lastPlace
  rcases Int.lt_or_eq_of_le hplace with hp | hp
  · have hlow : 52 + place x ≤ binaryOrder (magnitude x) := by
      apply le_binaryOrder hq
      have hcast : (2 : Rat) ^ 52 ≤ significand x := by exact_mod_cast hle hp
      rw [Rat.zpow_add (by decide)]
      exact Rat.mul_le_mul_of_nonneg_right hcast (Rat.le_of_lt (two_zpow_pos _))
    omega
  · omega

/-- The bits of a number come from its significand and its place. -/
theorem significand_add_place (x : Float) :
    significand x + (place x + 1074).toNat * fieldBit = magnitudeBits x := by
  have hdiv := Nat.div_add_mod (magnitudeBits x) fieldBit
  unfold significand place exponentField
  have hbit : fieldBit = 2 ^ 52 := rfl
  rw [hbit] at *
  split <;> omega

theorem magnitude_eq_zero {x : Float} (hx : significand x = 0) : magnitude x = 0 := by
  simp [magnitude, hx]

/-- A finite number is the nearest number to its exact magnitude. -/
theorem nearestBits_magnitude {x : Float} (h : magnitudeBits x < infinityBits) :
    nearestBits (magnitude x) = magnitudeBits x := by
  have hbits := significand_add_place x
  rcases Nat.eq_zero_or_pos (significand x) with hzero | hpos
  · have hplace : place x = -1074 := by
      obtain ⟨-, hle⟩ := significand_bounds x
      have hlow : -1074 ≤ place x := by
        unfold place
        omega
      omega
    rw [magnitude_eq_zero hzero, ← hbits, hzero, hplace]
    rfl
  · have hq : ¬ magnitude x ≤ 0 := by
      have hcast : (0 : Rat) < significand x := Rat.natCast_pos.mpr hpos
      exact Rat.not_le.mpr (Rat.mul_pos hcast (two_zpow_pos _))
    have hscaled : magnitude x / 2 ^ place x = significand x := by
      have hne : (2 : Rat) ^ place x ≠ 0 := (Rat.ne_of_lt (two_zpow_pos _)).symm
      rw [magnitude, Rat.div_def, Rat.mul_assoc, Rat.mul_inv_cancel _ hne, Rat.mul_one]
    unfold nearestBits
    rw [if_neg hq]
    simp only [lastPlace_magnitude hpos, hscaled, roundHalfEven_natCast, Int.toNat_natCast, hbits]
    omega

end ExprScript.Number
