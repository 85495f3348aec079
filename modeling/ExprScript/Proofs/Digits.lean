import ExprScript.Number.Layout
import ExprScript.Number.Numeral
import ExprScript.Proofs.Rounding

namespace ExprScript.Number

theorem eq_two_pow_of_dvd {d n : Nat} (h : d ∣ 2 ^ n) : ∃ k, d = 2 ^ k := by
  induction n generalizing d with
  | zero => exact ⟨0, Nat.dvd_one.mp h⟩
  | succ n ih =>
    rcases Nat.mod_two_eq_zero_or_one d with heven | hodd
    · obtain ⟨c, rfl⟩ := Nat.dvd_of_mod_eq_zero heven
      rw [Nat.pow_succ, Nat.mul_comm (2 ^ n)] at h
      obtain ⟨k, rfl⟩ := ih (Nat.dvd_of_mul_dvd_mul_left (Nat.zero_lt_two) h)
      exact ⟨k + 1, by rw [Nat.pow_succ, Nat.mul_comm]⟩
    · have hcoprime : Nat.Coprime d 2 := by
        rw [Nat.coprime_comm, Nat.Coprime, Nat.gcd_rec, hodd]
        rfl
      exact ih (hcoprime.dvd_of_dvd_mul_right h)

/-- The denominator of a finite number is a power of two. -/
theorem exists_den_magnitude (x : Float) : ∃ k, (magnitude x).den = 2 ^ k := by
  unfold magnitude
  rcases Int.le_total 0 (place x) with hp | hp
  · obtain ⟨n, hn⟩ := Int.eq_ofNat_of_zero_le hp
    refine ⟨0, ?_⟩
    have hcast : (significand x : Rat) * 2 ^ place x = (significand x * 2 ^ n : Nat) := by
      rw [hn, Rat.zpow_natCast]
      push_cast
      rfl
    rw [hcast]
    rfl
  · obtain ⟨n, hn⟩ : ∃ n : Nat, place x = -n := ⟨(-place x).toNat, by omega⟩
    have hdiv : (significand x : Rat) * 2 ^ place x = mkRat (significand x) (2 ^ n) := by
      rw [hn, Rat.zpow_neg, Rat.zpow_natCast, Rat.mkRat_eq_div, Rat.div_def]
      push_cast
      rfl
    rw [hdiv, Rat.den_mkRat, if_neg (by simp)]
    exact eq_two_pow_of_dvd (Nat.div_dvd_of_dvd (Nat.gcd_dvd_left _ _))

namespace Decimal

theorem toRat_mul_ten_pow (m : Nat) (p : Nat) :
    (⟨m, -p⟩ : Decimal).toRat * 10 ^ p = m := by
  have hne : (10 : Rat) ^ p ≠ 0 := (Rat.ne_of_lt (Rat.pow_pos (by decide))).symm
  rw [toRat, Rat.zpow_neg, Rat.zpow_natCast, Rat.mul_assoc, Rat.inv_mul_cancel _ hne, Rat.mul_one]

/-- Writing out all digits of a finite number keeps its value. -/
theorem exact_toRat (x : Float) : (exact x).toRat = magnitude x := by
  obtain ⟨k, hk⟩ := exists_den_magnitude x
  have hplaces : (magnitude x).den.log2 = k := by rw [hk, Nat.log2_two_pow]
  have hnum : ((magnitude x).num.toNat : Rat) = magnitude x * 2 ^ k := by
    have hnonneg : 0 ≤ magnitude x :=
      Rat.mul_nonneg Rat.natCast_nonneg (Rat.le_of_lt (two_zpow_pos _))
    have hden : ((magnitude x).den : Rat) = 2 ^ k := by
      rw [hk]
      push_cast
      rfl
    have hint : ((magnitude x).num.toNat : Int) = (magnitude x).num :=
      Int.toNat_of_nonneg (Rat.num_nonneg.mpr hnonneg)
    have hden0 : ((magnitude x).den : Rat) ≠ 0 := by
      have hne := (magnitude x).den_nz
      exact_mod_cast hne
    have hquot : magnitude x = (magnitude x).num / (magnitude x).den := by
      rw [← Rat.mkRat_eq_div, Rat.mkRat_self]
    rw [← hden, ← Rat.intCast_natCast, hint]
    grind
  have hten : (10 : Rat) ^ k = 2 ^ k * 5 ^ k := by
    have hnat : (10 : Nat) ^ k = 2 ^ k * 5 ^ k := Nat.mul_pow 2 5 k
    exact_mod_cast hnat
  have hne : (10 : Rat) ^ k ≠ 0 := (Rat.ne_of_lt (Rat.pow_pos (by decide))).symm
  have hexact : (exact x).toRat * 10 ^ k = magnitude x * 10 ^ k := by
    have hscaled := toRat_mul_ten_pow ((magnitude x).num.toNat * Nat.pow 5 k) k
    simp only [exact, hplaces]
    have hfive : ((Nat.pow 5 k : Nat) : Rat) = 5 ^ k := Rat.natCast_pow 5 k
    rw [hscaled, hten, ← Rat.mul_assoc, ← hnum, Rat.natCast_mul, hfive]
  grind

theorem trimZeros_toRat (m : Nat) (k : Int) : (trimZeros m k).toRat = (⟨m, k⟩ : Decimal).toRat := by
  fun_induction trimZeros m k with
  | case1 m k h ih =>
    have hten : (10 : Rat) ^ (k + 1) = 10 ^ k * 10 := Rat.zpow_add_one (by decide) k
    have hm : (m : Rat) = (m / 10 : Nat) * 10 := by
      have hdiv : m = m / 10 * 10 := by omega
      exact_mod_cast hdiv
    rw [ih, toRat, toRat, hten, hm]
    grind
  | case2 m k h => rfl

theorem trimZeros_mod (m : Nat) (k : Int) :
    (trimZeros m k).mantissa = 0 ∨ (trimZeros m k).mantissa % 10 ≠ 0 := by
  fun_induction trimZeros m k with
  | case1 m k h ih => exact ih
  | case2 m k h =>
    change m = 0 ∨ m % 10 ≠ 0
    omega

theorem shortest_readsBack {x : Float} (h : magnitudeBits x < infinityBits) :
    (shortest x).ReadsBackTo x := by
  have hexact : (exact x).ReadsBackTo x := by
    rw [ReadsBackTo, exact_toRat]
    exact nearestBits_magnitude h
  unfold shortest
  split
  · rename_i hzero
    rw [ReadsBackTo, hzero, toRat]
    simp [nearestBits]
  · have hfound : (((candidates x).find? (fun d => d.ReadsBackTo x)).getD (exact x)).ReadsBackTo
        x := by
      cases hf : (candidates x).find? (fun d => d.ReadsBackTo x) with
      | none => exact hexact
      | some d => simpa using List.find?_some hf
    rw [ReadsBackTo, trimZeros_toRat]
    exact hfound

/-- The shortest decimal is zero or ends in another digit than zero. -/
theorem shortest_eq_zero_or {x : Float} (h : magnitudeBits x < infinityBits) :
    shortest x = ⟨0, 0⟩ ∨ (shortest x).mantissa % 10 ≠ 0 := by
  have hback := shortest_readsBack h
  unfold shortest at hback ⊢
  split at hback
  · rename_i hzero
    exact .inl (if_pos hzero)
  · rename_i hne
    rw [if_neg hne]
    refine .inr ((trimZeros_mod _ _).resolve_left fun hzero => hne ?_)
    -- A mantissa of zero would read back as zero.
    rw [← hback, toRat, hzero]
    simp [nearestBits]

/-- The decimal ends in no zero behind the point. -/
def IsTrimmed (d : Decimal) : Prop := 0 ≤ d.exponent ∨ d.mantissa % 10 ≠ 0

theorem isTrimmed_of_eq_zero_or {d : Decimal} (h : d = ⟨0, 0⟩ ∨ d.mantissa % 10 ≠ 0) :
    d.IsTrimmed := by
  rcases h with rfl | hdigit
  · exact .inl (Int.le_refl 0)
  · exact .inr hdigit

theorem shortest_isTrimmed {x : Float} (h : magnitudeBits x < infinityBits) :
    (shortest x).IsTrimmed := isTrimmed_of_eq_zero_or (shortest_eq_zero_or h)

/-- The shortest decimal does not depend on the sign. -/
theorem shortest_congr {x y : Float} (h : magnitudeBits x = magnitudeBits y) :
    shortest x = shortest y := by
  have hfield : exponentField x = exponentField y := by rw [exponentField, h, exponentField]
  have hmagnitude : magnitude x = magnitude y := by
    simp only [magnitude, significand, place, h, hfield]
  have hreads : (fun d : Decimal => decide (d.ReadsBackTo x)) =
      fun d => decide (d.ReadsBackTo y) := by
    funext d
    rw [decide_eq_decide, ReadsBackTo, ReadsBackTo, h]
  simp only [shortest, candidates, exact, h, hmagnitude, hreads]

end Decimal

/-- Digits, and after a point further digits if there are any. -/
def pointed (whole fraction : List Char) : List Char :=
  match fraction with
  | [] => whole
  | _ :: _ => whole ++ '.' :: fraction

/-- The digits in front of the point, of which there are some, and those behind it. -/
structure AreDigits (whole fraction : List Char) : Prop where
  nonempty : whole ≠ []
  whole : ∀ c ∈ whole, c.isDigit = true
  fraction : ∀ c ∈ fraction, c.isDigit = true

theorem pointed_head {whole fraction : List Char} (h : AreDigits whole fraction) :
    ∃ c cs, pointed whole fraction = c :: cs ∧ c.isDigit = true := by
  obtain ⟨c, cs, rfl⟩ := List.exists_cons_of_ne_nil h.nonempty
  have hc := h.whole c (by simp)
  cases fraction with
  | nil => exact ⟨c, cs, rfl, hc⟩
  | cons d ds => exact ⟨c, _, rfl, hc⟩

/-- The decimal that the digits around a point spell. -/
def spelledDecimal (whole fraction : List Char) : Decimal :=
  ⟨Nat.ofDigitChars 10 (whole ++ fraction) 0, -fraction.length⟩

namespace Decimal

theorem isDigit_of_mem_digits {d : Decimal} {c : Char} (h : c ∈ d.digits) : c.isDigit = true :=
  Nat.isDigit_of_mem_toDigits (by decide) (by decide) h

theorem ofDigitChars_digits (d : Decimal) : Nat.ofDigitChars 10 d.digits 0 = d.mantissa :=
  Nat.ofDigitChars_ten_toDigits

theorem positional_eq_pointed (d : Decimal) :
    d.positional false = pointed d.parts.1 d.parts.2 := by
  unfold positional pointed
  split
  · rename_i whole hparts
    rw [hparts]
    exact List.append_nil whole
  · rename_i whole fraction hne hparts
    rw [hparts]
    cases fraction with
    | nil => exact (hne rfl).elim
    | cons c cs => rfl

theorem parts_of_nonneg {d : Decimal} (h : 0 ≤ d.exponent) :
    AreDigits d.parts.1 d.parts.2 ∧ (spelledDecimal d.parts.1 d.parts.2).toRat = d.toRat := by
  obtain ⟨n, hn⟩ := Int.eq_ofNat_of_zero_le h
  rw [parts, if_pos h, hn, Int.toNat_natCast]
  refine ⟨⟨?_, ?_, by simp⟩, ?_⟩
  · simp [digits, Nat.toDigits_ne_nil]
  · intro c hc
    rcases List.mem_append.mp hc with hc | hc
    · exact isDigit_of_mem_digits hc
    · obtain rfl := List.eq_of_mem_replicate hc
      rfl
  · have hvalue :
        Nat.ofDigitChars 10 (d.digits ++ List.replicate n '0') 0 = 10 ^ n * d.mantissa := by
      rw [Nat.ofDigitChars_append, ofDigitChars_digits, Nat.ofDigitChars_replicate_zero]
    simp only [spelledDecimal, toRat, List.append_nil, hvalue, hn, List.length_nil]
    rw [Rat.zpow_natCast, show (-((0 : Nat) : Int)) = 0 from rfl, Rat.zpow_zero, Rat.mul_one,
      Rat.natCast_mul, Rat.natCast_pow, Rat.mul_comm]
    rfl

theorem parts_of_neg {d : Decimal} (h : d.exponent < 0) :
    AreDigits d.parts.1 d.parts.2 ∧ spelledDecimal d.parts.1 d.parts.2 = d := by
  obtain ⟨n, hn⟩ : ∃ n : Nat, d.exponent = -n := ⟨(-d.exponent).toNat, by omega⟩
  have hplaces : (-d.exponent).toNat = n := by omega
  rw [parts, if_neg (by omega), hplaces]
  simp only [List.splitAt_eq]
  generalize hpadded : List.replicate (n + 1 - d.digits.length) '0' ++ d.digits = padded
  have hlength : n + 1 ≤ padded.length := by
    rw [← hpadded]
    simp
    omega
  have hdigit : ∀ c ∈ padded, c.isDigit = true := by
    intro c hc
    rw [← hpadded] at hc
    rcases List.mem_append.mp hc with hc | hc
    · obtain rfl := List.eq_of_mem_replicate hc
      rfl
    · exact isDigit_of_mem_digits hc
  have hvalue : Nat.ofDigitChars 10 padded 0 = d.mantissa := by
    rw [← hpadded, Nat.ofDigitChars_append, Nat.ofDigitChars_replicate_zero, Nat.mul_zero,
      ofDigitChars_digits]
  refine ⟨⟨?_, ?_, ?_⟩, ?_⟩
  · intro hnil
    have hzero := congrArg List.length hnil
    simp only [List.length_take, List.length_nil] at hzero
    omega
  · exact fun c hc => hdigit c (List.mem_of_mem_take hc)
  · exact fun c hc => hdigit c (List.mem_of_mem_drop hc)
  · rw [spelledDecimal, List.take_append_drop, hvalue, List.length_drop]
    have hlast : padded.length - (padded.length - n) = n := by omega
    rw [hlast, ← hn]

/-- The parts of a decimal are digits, and they spell its value. -/
theorem parts_spell (d : Decimal) :
    AreDigits d.parts.1 d.parts.2 ∧ (spelledDecimal d.parts.1 d.parts.2).toRat = d.toRat := by
  rcases Int.lt_or_le d.exponent 0 with h | h
  · obtain ⟨hdigits, hvalue⟩ := parts_of_neg h
    exact ⟨hdigits, congrArg toRat hvalue⟩
  · exact parts_of_nonneg h

theorem IsTrimmed.getLast?_ne {d : Decimal} (h : d.IsTrimmed) : d.parts.2.getLast? ≠ some '0' := by
  rcases Int.lt_or_le d.exponent 0 with hneg | hnonneg
  · -- A zero at the end would be the last digit of the mantissa.
    intro hlast
    obtain ⟨front, hfront⟩ := List.getLast?_eq_some_iff.mp hlast
    have hvalue := congrArg mantissa (parts_of_neg hneg).2
    simp only [spelledDecimal, hfront, ← List.append_assoc, Nat.ofDigitChars_append] at hvalue
    have hmod := h.resolve_left (Int.not_le.mpr hneg)
    simp [← hvalue, Nat.ofDigitChars_cons] at hmod
  · rw [parts, if_pos hnonneg]
    simp

end Decimal

namespace Numeral

variable {whole fraction : List Char}

/-- The characters of numerals without a sign and an exponent. -/
def IsPlain (c : Char) : Prop := c.isDigit = true ∨ c = '.'

theorem isPlain_of_mem_pointed (h : AreDigits whole fraction) :
    ∀ c ∈ pointed whole fraction, IsPlain c := by
  intro c hc
  cases fraction with
  | nil => exact .inl (h.whole c hc)
  | cons d ds =>
    rcases List.mem_append.mp hc with hc | hc
    · exact .inl (h.whole c hc)
    · rcases List.mem_cons.mp hc with rfl | hc
      · exact .inr rfl
      · exact .inl (h.fraction c hc)

theorem toNat_of_isDigit {c : Char} (h : c.isDigit = true) : 48 ≤ c.toNat ∧ c.toNat ≤ 57 := by
  simp only [Char.isDigit, Bool.and_eq_true, decide_eq_true_eq, ge_iff_le] at h
  exact ⟨h.1, h.2⟩

/-- Plain characters are neither folded nor dropped. -/
theorem IsPlain.kept {c : Char} (h : IsPlain c) :
    fold? c = some c ∧ c ≠ '_' ∧ isPadding c = false := by
  rcases h with h | rfl
  · obtain ⟨hlow, hhigh⟩ := toNat_of_isDigit h
    refine ⟨if_pos (by omega), ?_, ?_⟩
    · rintro rfl
      cases h
    · have hspace : c ≠ ' ' := by
        rintro rfl
        cases h
      simp [isPadding, hspace]
      omega
  · exact ⟨rfl, by decide, rfl⟩

theorem mapM_fold?_of_plain {cs : List Char} (h : ∀ c ∈ cs, IsPlain c) :
    cs.mapM fold? = some cs := by
  induction cs with
  | nil => rfl
  | cons c cs ih =>
    obtain ⟨hc, hcs⟩ := List.forall_mem_cons.mp h
    simp [List.mapM_cons, hc.kept.1, ih hcs]

theorem dropSeparators_of_plain {cs : List Char} (h : ∀ c ∈ cs, IsPlain c) (afterDigit : Bool) :
    dropSeparators afterDigit cs = some cs := by
  induction cs generalizing afterDigit with
  | nil => rfl
  | cons c cs ih =>
    obtain ⟨hc, hcs⟩ := List.forall_mem_cons.mp h
    cases cs with
    | nil => simp [dropSeparators, hc.kept.2.1]
    | cons d ds => simp [dropSeparators, hc.kept.2.1, ih hcs]

theorem trim_of_plain {cs : List Char} (h : ∀ c ∈ cs, IsPlain c) :
    Text.trim isPadding cs = cs := by
  have hdrop {ds : List Char} (hds : ∀ c ∈ ds, IsPlain c) : ds.dropWhile isPadding = ds := by
    cases ds with
    | nil => rfl
    | cons d ds => simp [(hds d (by simp)).kept.2.2]
  rw [Text.trim, hdrop h, hdrop (fun c hc => h c (List.mem_reverse.mp hc)), List.reverse_reverse]

theorem splitSign_of_isDigit {c : Char} (h : c.isDigit = true) (cs : List Char) :
    splitSign (c :: cs) = (false, c :: cs) := by
  unfold splitSign
  split
  · rename_i heq
    cases heq
    cases h
  · rename_i heq
    cases heq
    cases h
  · rfl

/-- What starts with a digit is no word for a number. -/
theorem unsigned?_of_isDigit {c : Char} (h : c.isDigit = true) (negative : Bool)
    (cs : List Char) :
    unsigned? negative (c :: cs) = (decimal? (c :: cs)).map (·.toFloat negative) := by
  have hlower : c.toLower = c := by
    obtain ⟨hlow, hhigh⟩ := toNat_of_isDigit h
    refine dif_neg fun hupper => ?_
    have hletter : 65 ≤ c.toNat := hupper.1
    omega
  have hi : c ≠ 'i' := by
    rintro rfl
    cases h
  have hn : c ≠ 'n' := by
    rintro rfl
    cases h
  simp [unsigned?, hlower, hi, hn]

/-- A front of characters with a property ends where the first character without it stands. -/
theorem span_loop_append {p : Char → Bool} {xs ys : List Char} (hx : ∀ c ∈ xs, p c = true)
    (hy : ∀ c ∈ ys.head?, p c = false) (found : List Char) :
    List.span.loop p (xs ++ ys) found = (found.reverse ++ xs, ys) := by
  induction xs generalizing found with
  | nil =>
    cases ys with
    | nil => simp [List.span.loop]
    | cons y ys => simp [List.span.loop, hy y rfl]
  | cons x xs ih =>
    obtain ⟨hx, hxs⟩ := List.forall_mem_cons.mp hx
    simp [List.span.loop, hx, ih hxs]

theorem span_append {p : Char → Bool} {xs ys : List Char} (hx : ∀ c ∈ xs, p c = true)
    (hy : ∀ c ∈ ys.head?, p c = false) : (xs ++ ys).span p = (xs, ys) :=
  span_loop_append hx hy []

theorem clampExponent_zero (digits : Nat) : clampExponent digits 0 = 0 := by
  unfold clampExponent
  omega

/-- A numeral goes on up to what is neither a digit nor a point. That has to be an exponent. -/
theorem parts?_pointed_append (h : AreDigits whole fraction) {rest : List Char}
    (hrest : ∀ c ∈ rest.head?, ¬ IsPlain c) :
    parts? (pointed whole fraction ++ rest) =
      (exponent? rest).map (whole ++ fraction, fraction.length, ·) := by
  have hne : whole ++ fraction ≠ [] := fun hnil => h.nonempty (List.append_eq_nil_iff.mp hnil).1
  have hstop : ∀ c ∈ rest.head?, c.isDigit = false := fun c hc =>
    Bool.eq_false_iff.mpr fun hdigit => hrest c hc (.inl hdigit)
  cases fraction with
  | nil =>
    rw [List.append_nil] at hne
    simp only [pointed, parts?, span_append h.whole hstop]
    split
    · exact absurd (.inr rfl) (hrest '.' rfl)
    · simp only [List.append_nil, if_neg hne]
  | cons d ds =>
    have hspan : (whole ++ '.' :: d :: (ds ++ rest)).span Char.isDigit =
        (whole, '.' :: d :: (ds ++ rest)) := span_append h.whole (by simp)
    have hfraction : (d :: (ds ++ rest)).span Char.isDigit = (d :: ds, rest) :=
      span_append h.fraction hstop
    simp only [pointed, parts?, List.append_assoc, List.cons_append, hspan, hfraction]
    rw [if_neg hne]

theorem decimal?_pointed (h : AreDigits whole fraction) :
    decimal? (pointed whole fraction) = some (spelledDecimal whole fraction) := by
  have hparts := @parts?_pointed_append whole fraction h [] (by simp)
  rw [List.append_nil] at hparts
  simp only [decimal?, hparts, exponent?, Option.map_some, clampExponent_zero, Int.zero_sub,
    spelledDecimal]

theorem read?_pointed (h : AreDigits whole fraction) :
    read? (pointed whole fraction) = some ((spelledDecimal whole fraction).toFloat false) := by
  have hplain := isPlain_of_mem_pointed h
  obtain ⟨c, cs, hcs, hc⟩ := pointed_head h
  simp only [read?, mapM_fold?_of_plain hplain, Option.bind_eq_bind, Option.bind_some,
    trim_of_plain hplain, dropSeparators_of_plain hplain]
  rw [hcs, splitSign_of_isDigit hc]
  simp only [unsigned?_of_isDigit hc]
  rw [← hcs, decimal?_pointed h, Option.map_some]

end Numeral

/-- The text of the magnitude of a finite number reads as that magnitude, and no zero ends its
fraction. -/
theorem exists_writeMagnitude {x : Float} (h : magnitudeBits x < infinityBits) :
    ∃ whole fraction, AreDigits whole fraction ∧
      writeMagnitude .plain x = pointed whole fraction ∧
      Numeral.read? (pointed whole fraction) = some (unsigned x) ∧
      fraction.getLast? ≠ some '0' := by
  obtain ⟨hdigits, hvalue⟩ := (Decimal.shortest x).parts_spell
  have hback : nearestBits (Decimal.shortest x).toRat = magnitudeBits x :=
    Decimal.shortest_readsBack h
  refine ⟨_, _, hdigits, Decimal.positional_eq_pointed _, ?_,
    (Decimal.shortest_isTrimmed h).getLast?_ne⟩
  rw [Numeral.read?_pointed hdigits, Decimal.toFloat, hvalue, ofMagnitude, hback]
  rfl

theorem writeMagnitude_congr {x y : Float} (h : magnitudeBits x = magnitudeBits y)
    (layout : Layout) : writeMagnitude layout x = writeMagnitude layout y := by
  rw [writeMagnitude, Decimal.shortest_congr h, writeMagnitude]

end ExprScript.Number
