import SmallLisp.Proofs.Number.Rounding

/-!
# Decimals are read as the nearest float

`Decimal.toFloat_eq`: a decimal other than zero is read as the float nearest to its value. So what a
decimal is read as depends on its value alone, and not on how that is split into a coefficient and a
power of ten.

Small coefficients with small powers of ten go through one product or quotient of two floats, which
are exact (`form_natCast`, `form_powerOfTen`); all others go through whole numbers of any length.
-/

namespace SmallLisp

open Float.Model Float.Model.UnpackedFloat Binary64

/-- The number that a decimal stands for. -/
def Decimal.value (d : Decimal) : ℚ := d.coefficient * 10 ^ d.exponent

theorem ten_zpow_pos (e : ℤ) : (0 : ℚ) < 10 ^ e := zpow_pos (by norm_num) e

/-! ## 1. The number of digits -/

theorem digitCount_pos (n : ℕ) : 0 < digitCount n := Nat.length_toDigits_pos

theorem lt_ten_pow_digitCount (n : ℕ) : n < 10 ^ digitCount n :=
  (Nat.length_toDigits_le_iff (by decide) (digitCount_pos n)).mp (le_refl _)

theorem ten_pow_le_of_lt_digitCount {n k : ℕ} (hn : n ≠ 0) (hk : k < digitCount n) :
    10 ^ k ≤ n := by
  by_cases h0 : k = 0
  · rw [h0]
    exact Nat.pos_of_ne_zero hn
  · by_contra hlt
    have := (Nat.length_toDigits_le_iff (by decide) (Nat.pos_of_ne_zero h0)).mpr
      (Nat.lt_of_not_le hlt)
    exact absurd hk (Nat.not_lt.mpr this)

/-- The magnitude of a decimal, as `Decimal.toFloat` estimates it. -/
def Decimal.magnitude (d : Decimal) : ℤ := digitCount d.coefficient + d.exponent

theorem Decimal.value_lt (d : Decimal) : d.value < 10 ^ d.magnitude := by
  unfold value magnitude
  rw [zpow_add₀ (by norm_num), zpow_natCast]
  gcongr
  exact_mod_cast lt_ten_pow_digitCount d.coefficient

theorem Decimal.le_value {d : Decimal} (h : d.coefficient ≠ 0) :
    10 ^ (d.magnitude - 1) ≤ d.value := by
  have hpos := digitCount_pos d.coefficient
  have hle : (10 : ℚ) ^ (digitCount d.coefficient - 1) ≤ d.coefficient := by
    exact_mod_cast ten_pow_le_of_lt_digitCount h (by omega)
  have hsplit : d.magnitude - 1 = ((digitCount d.coefficient - 1 : ℕ) : ℤ) + d.exponent := by
    unfold magnitude
    omega
  unfold value
  rw [hsplit, zpow_add₀ (by norm_num), zpow_natCast]
  gcongr

/-! ## 2. Exact floats -/

theorem ofNat_eq {n : ℕ} (h0 : n ≠ 0) :
    UnpackedFloat.ofNat Format.binary64 n = roundForm .positive n := by
  have hcompare : compare (n : ℤ) 0 = .gt := by
    rw [Int.compare_eq_gt]
    omega
  have hround := round_eq .positive h0 0
  rw [zpow_zero, mul_one] at hround
  unfold UnpackedFloat.ofNat UnpackedFloat.ofInt UnpackedFloat.normalize
  rw [hcompare]
  exact hround

/-- A whole number below `2 ^ 53` is a float, here with all its bits. -/
theorem form_natCast {n : ℕ} (h0 : n ≠ 0) (h : n < 0x20000000000000) :
    ∃ (m : ℕ) (e : ℤ) (hm : 0 < m), form n.toUInt64.toFloat = .finite .positive m e hm ∧
      0x10000000000000 ≤ m ∧ (m : ℚ) * 2 ^ e = n := by
  have hlog : n.log2 < 53 := (Nat.log2_lt h0).mpr h
  obtain ⟨k, hk⟩ : ∃ k, n.log2 + k = 52 := ⟨52 - n.log2, by omega⟩
  have hlow : 0x10000000000000 ≤ n * 2 ^ k := by
    calc 0x10000000000000 = 2 ^ n.log2 * 2 ^ k := by rw [← pow_add, hk]; rfl
      _ ≤ n * 2 ^ k := Nat.mul_le_mul_right _ (Nat.log2_self_le h0)
  have hhigh : n * 2 ^ k < 0x20000000000000 := by
    calc n * 2 ^ k < 2 ^ (n.log2 + 1) * 2 ^ k :=
          Nat.mul_lt_mul_of_pos_right Nat.lt_log2_self (Nat.two_pow_pos k)
      _ = 0x20000000000000 := by rw [← pow_add, add_right_comm, hk]; rfl
  have hm : 0 < n * 2 ^ k := by omega
  have hvalue : ((n * 2 ^ k : ℕ) : ℚ) * 2 ^ (-(k : ℤ)) = n := by
    rw [zpow_neg, zpow_natCast]
    push_cast
    exact mul_inv_cancel_right₀ (by positivity) _
  have hcanon : Canonical (.finite .positive (n * 2 ^ k) (-(k : ℤ)) hm) :=
    ⟨hhigh, by omega, by omega, .inr hlow⟩
  refine ⟨n * 2 ^ k, -(k : ℤ), hm, ?_, hlow, hvalue⟩
  have hbits : n.toUInt64.toNat = n := by
    rw [UInt64.toNat_ofNat']
    exact Nat.mod_eq_of_lt (by omega)
  have hform : UnpackedFloat.ofUInt64 Format.binary64 n.toUInt64
      = .finite .positive (n * 2 ^ k) (-(k : ℤ)) hm := by
    unfold UnpackedFloat.ofUInt64
    rw [hbits, ofNat_eq h0, ← roundForm_exact hcanon, hvalue]
  show form (ofForm (UnpackedFloat.ofUInt64 Format.binary64 n.toUInt64)) = _
  rw [hform, form_ofForm hcanon]

/-- The form is that of the whole number `n`, in units of at least `2 ^ -52`. -/
def isWhole (n : ℕ) : UnpackedFloat → Bool
  | .finite .positive m q _ => decide (-52 ≤ q) && m * 2 ^ (q + 52).toNat == n * 2 ^ 52
  | _ => false

theorem value_of_isWhole {n : ℕ} {u : UnpackedFloat} (h : isWhole n u = true) :
    ∃ (m : ℕ) (q : ℤ) (hm : 0 < m), u = .finite .positive m q hm ∧ (m : ℚ) * 2 ^ q = n := by
  unfold isWhole at h
  split at h
  · rename_i m q hm
    rw [Bool.and_eq_true, decide_eq_true_iff, beq_iff_eq] at h
    obtain ⟨hq, hunits⟩ := h
    refine ⟨m, q, hm, rfl, ?_⟩
    obtain ⟨k, hk⟩ := Int.eq_ofNat_of_zero_le (by omega : 0 ≤ q + 52)
    have hunits' : (m : ℚ) * 2 ^ k = n * 2 ^ 52 := by
      rw [hk, Int.toNat_natCast] at hunits
      exact_mod_cast hunits
    have hq' : q = k - (52 : ℕ) := by omega
    rw [hq', zpow_sub₀ (by norm_num), zpow_natCast, zpow_natCast, ← mul_div_assoc, hunits',
      mul_div_cancel_right₀ _ (by norm_num)]
  · cases h

/-- The powers of ten that are floats. -/
theorem form_powerOfTen {e : ℕ} (h : e < Float.exactlyRepresentablePowersOfTen.size) :
    ∃ (m : ℕ) (q : ℤ) (hm : 0 < m),
      form Float.exactlyRepresentablePowersOfTen[e] = .finite .positive m q hm ∧
      (m : ℚ) * 2 ^ q = 10 ^ e := by
  have htable : ∀ i : Fin 23,
      isWhole (10 ^ i.val) (form Float.exactlyRepresentablePowersOfTen[i.val]) = true := by
    decide +kernel
  obtain ⟨m, q, hm, hform, hvalue⟩ := value_of_isWhole (htable ⟨e, h⟩)
  exact ⟨m, q, hm, hform, by rw [hvalue]; push_cast; rfl⟩

/-! ## 3. The nearest float -/

theorem ofScientific_up {n : ℕ} (h0 : n ≠ 0) {e : ℕ} (he : e ≤ 400) :
    Float.ofScientific n false e = nearest .positive (n * 10 ^ e) := by
  unfold Float.ofScientific
  split
  · rename_i hfast
    obtain ⟨m, q, hm, hform, hbits, hvalue⟩ := form_natCast h0 hfast.1
    have hsize : e < Float.exactlyRepresentablePowersOfTen.size := Nat.lt_succ_of_le hfast.2
    obtain ⟨m', q', hm', hform', hvalue'⟩ := form_powerOfTen hsize
    show ofForm (UnpackedFloat.mul Format.binary64 (form n.toUInt64.toFloat)
      (form Float.exactlyRepresentablePowersOfTen[e])) = _
    rw [hform, hform', mul_eq hm' hbits, hvalue, hvalue']
    rfl
  · show ofForm (UnpackedFloat.ofScientific Format.binary64 n (e : ℤ)) = _
    have hlarge : ¬ ((e : ℤ) > 2 ^ Format.binary64.exponentBits) := by
      show ¬ ((e : ℤ) > 2048)
      omega
    have hsmall : ¬ ((e : ℤ) < -((2 ^ Format.binary64.exponentBits : ℤ) + n.log2)) := by
      show ¬ ((e : ℤ) < -(2048 + n.log2))
      omega
    unfold UnpackedFloat.ofScientific
    rw [dif_neg h0, if_neg hlarge, if_neg hsmall, if_pos (Int.natCast_nonneg e)]
    have hbits : 0x10000000000000 ≤ n <<< Format.binary64.mantissaBits := by
      rw [Nat.shiftLeft_eq]
      calc 0x10000000000000 ≤ 1 * 2 ^ Format.binary64.mantissaBits := by decide
        _ ≤ n * 2 ^ Format.binary64.mantissaBits :=
            Nat.mul_le_mul_right _ (Nat.pos_of_ne_zero h0)
    have hvalue : ((n <<< Format.binary64.mantissaBits : ℕ) : ℚ)
        * 2 ^ (-(Format.binary64.mantissaBits : ℤ)) = n := by
      rw [Nat.shiftLeft_eq, zpow_neg, zpow_natCast]
      push_cast
      exact mul_inv_cancel_right₀ (by positivity) _
    rw [mul_eq _ hbits, hvalue, Int.toNat_natCast, zpow_zero, mul_one]
    push_cast
    rfl

theorem ofScientific_down {n : ℕ} (h0 : n ≠ 0) {e : ℕ} (hpos : 0 < e) (he : e ≤ 2048 + n.log2) :
    Float.ofScientific n true e = nearest .positive (n / 10 ^ e) := by
  unfold Float.ofScientific
  split
  · rename_i hfast
    obtain ⟨m, q, hm, hform, -, hvalue⟩ := form_natCast h0 hfast.1
    have hsize : e < Float.exactlyRepresentablePowersOfTen.size := Nat.lt_succ_of_le hfast.2
    obtain ⟨m', q', hm', hform', hvalue'⟩ := form_powerOfTen hsize
    show ofForm (UnpackedFloat.div Format.binary64 (form n.toUInt64.toFloat)
      (form Float.exactlyRepresentablePowersOfTen[e])) = _
    rw [hform, hform', div_eq, hvalue, hvalue']
    rfl
  · show ofForm (UnpackedFloat.ofScientific Format.binary64 n (Int.negOfNat e)) = _
    have hneg : Int.negOfNat e = -(e : ℤ) := Int.negOfNat_eq
    have hlarge : ¬ (-(e : ℤ) > 2 ^ Format.binary64.exponentBits) := by
      show ¬ (-(e : ℤ) > 2048)
      omega
    have hsmall : ¬ (-(e : ℤ) < -((2 ^ Format.binary64.exponentBits : ℤ) + n.log2)) := by
      show ¬ (-(e : ℤ) < -(2048 + n.log2))
      omega
    unfold UnpackedFloat.ofScientific
    rw [hneg, dif_neg h0, if_neg hlarge, if_neg hsmall, if_neg (by omega), div_eq, neg_neg,
      Int.toNat_natCast, zpow_zero, mul_one, mul_one]
    push_cast
    rfl

theorem digitCount_le_log2 {n : ℕ} (h0 : n ≠ 0) : digitCount n ≤ n.log2 + 1 := by
  have hpos := digitCount_pos n
  have hle := ten_pow_le_of_lt_digitCount h0 (by omega : digitCount n - 1 < digitCount n)
  have hpow : 2 ^ (digitCount n - 1) ≤ n := (Nat.pow_le_pow_left (by decide) _).trans hle
  have := (Nat.le_log2 h0).mpr hpow
  omega

theorem zero_eq : (0 : Float) = ofForm (.zero .positive) := rfl

theorem infinity_eq : SmallLisp.infinity = ofForm (.infinity .positive) := rfl

theorem two_pow_le_ten_pow {a b : ℕ} (n : ℕ) (ha : a ≤ 13 * n) (hb : 4 * n ≤ b) :
    (2 : ℚ) ^ a ≤ 10 ^ b := by
  calc (2 : ℚ) ^ a ≤ 2 ^ (13 * n) := pow_le_pow_right₀ (by norm_num) ha
    _ = 8192 ^ n := by rw [pow_mul]; norm_num
    _ ≤ 10000 ^ n := pow_le_pow_left₀ (by norm_num) (by norm_num) n
    _ = 10 ^ (4 * n) := by rw [pow_mul]; norm_num
    _ ≤ 10 ^ b := pow_le_pow_right₀ (by norm_num) hb

/-- **A decimal is read as the float nearest to its value.** -/
theorem Decimal.toFloat_eq {d : Decimal} (h0 : d.coefficient ≠ 0) :
    d.toFloat = nearest .positive d.value := by
  have hlow := d.le_value h0
  have hhigh := d.value_lt
  have hcount := digitCount_le_log2 h0
  have hpos := digitCount_pos d.coefficient
  have hmag : d.magnitude = digitCount d.coefficient + d.exponent := rfl
  unfold Decimal.toFloat
  simp only [← hmag]
  by_cases htiny : d.magnitude < -400
  · rw [if_pos (.inr htiny), zero_eq, nearest,
      roundForm_tiny _ (lt_of_lt_of_le (ten_zpow_pos _) hlow)]
    calc d.value < 10 ^ d.magnitude := hhigh
      _ ≤ 10 ^ (-400 : ℤ) := zpow_le_zpow_right₀ (by norm_num) (by omega)
      _ ≤ 2 ^ (-1075 : ℤ) := by
          rw [zpow_neg, zpow_neg]
          refine inv_anti₀ (two_zpow_pos 1075) ?_
          rw [zpow_ofNat, zpow_ofNat]
          exact two_pow_le_ten_pow 100 (by decide) (by decide)
  rw [if_neg (not_or.mpr ⟨h0, htiny⟩)]
  by_cases hhuge : 400 < d.magnitude
  · rw [if_pos hhuge, infinity_eq, nearest_huge]
    calc (2 : ℚ) ^ (1024 : ℤ) ≤ 10 ^ (400 : ℤ) := by
          rw [zpow_ofNat, zpow_ofNat]
          exact two_pow_le_ten_pow 100 (by decide) (by decide)
      _ ≤ 10 ^ (d.magnitude - 1) := zpow_le_zpow_right₀ (by norm_num) (by omega)
      _ ≤ d.value := hlow
  rw [if_neg hhuge]
  unfold value
  by_cases hneg : d.exponent < 0
  · obtain ⟨e, he⟩ := Int.eq_ofNat_of_zero_le (by omega : 0 ≤ -d.exponent)
    have he' : d.exponent = -(e : ℤ) := by omega
    rw [if_pos hneg, he, Int.toNat_natCast, ofScientific_down h0 (by omega) (by omega), he',
      zpow_neg, zpow_natCast, div_eq_mul_inv]
  · obtain ⟨e, he⟩ := Int.eq_ofNat_of_zero_le (by omega : 0 ≤ d.exponent)
    rw [if_neg hneg, he, Int.toNat_natCast, ofScientific_up h0 (by omega), zpow_natCast]

theorem Decimal.toFloat_zero {d : Decimal} (h0 : d.coefficient = 0) : d.toFloat = 0 := by
  unfold Decimal.toFloat
  dsimp only
  rw [if_pos (.inl h0)]

/-- What a decimal is read as depends on its value alone. -/
theorem Decimal.toFloat_congr {d d' : Decimal} (h : d.value = d'.value) :
    d.toFloat = d'.toFloat := by
  have hzero (d : Decimal) : d.value = 0 ↔ d.coefficient = 0 := by
    unfold value
    rw [mul_eq_zero, or_iff_left (ten_zpow_pos _).ne', Nat.cast_eq_zero]
  by_cases h0 : d.coefficient = 0
  · rw [toFloat_zero h0, toFloat_zero ((hzero d').mp (h ▸ (hzero d).mpr h0))]
  · have h0' : d'.coefficient ≠ 0 := fun h' => h0 ((hzero d).mp (h ▸ (hzero d').mpr h'))
    rw [toFloat_eq h0, toFloat_eq h0', h]

/-- A decimal is never read as what is not a number. -/
theorem Decimal.form_toFloat (d : Decimal) : form d.toFloat ≠ .notANumber := by
  by_cases h0 : d.coefficient = 0
  · rw [toFloat_zero h0, zero_eq, form_ofForm (u := .zero .positive) trivial]
    exact UnpackedFloat.noConfusion
  · have hpos : 0 < d.value := lt_of_lt_of_le (ten_zpow_pos _) (d.le_value h0)
    rw [toFloat_eq h0]
    rcases canonical_roundForm .positive hpos with hcanon | hinf
    · rw [nearest, form_ofForm hcanon]
      unfold roundForm unitsForm
      split
      · exact UnpackedFloat.noConfusion
      · split <;> exact UnpackedFloat.noConfusion
    · rw [hinf, form_ofForm (u := .infinity .positive) trivial]
      exact UnpackedFloat.noConfusion

/-! ## 4. Magnitudes -/

/-- A decimal that is read as a finite float other than zero is of a moderate magnitude. -/
theorem Decimal.magnitude_bounds {d : Decimal} {s : Sign} {m : ℕ} {e : ℤ} {hm : 0 < m}
    (h : form d.toFloat = .finite s m e hm) :
    d.coefficient ≠ 0 ∧ -400 ≤ d.magnitude ∧ d.magnitude ≤ 400 := by
  have hmagnitude : d.magnitude = digitCount d.coefficient + d.exponent := rfl
  unfold Decimal.toFloat at h
  simp only [← hmagnitude] at h
  by_cases hsmall : d.coefficient = 0 ∨ d.magnitude < -400
  · rw [if_pos hsmall, zero_eq, form_ofForm (u := .zero .positive) trivial] at h
    cases h
  rw [if_neg hsmall] at h
  by_cases hlarge : 400 < d.magnitude
  · rw [if_pos hlarge, infinity_eq, form_ofForm (u := .infinity .positive) trivial] at h
    cases h
  exact ⟨fun h0 => hsmall (.inl h0), by omega, by omega⟩

theorem Decimal.magnitude_le {d : Decimal} (h0 : d.coefficient ≠ 0) {k : ℤ} (h : d.value < 10 ^ k) :
    d.magnitude ≤ k := by
  have hlt := lt_of_le_of_lt (d.le_value h0) h
  rw [zpow_lt_zpow_iff_right₀ (by norm_num)] at hlt
  omega

theorem Decimal.lt_magnitude {d : Decimal} {k : ℤ} (h : 10 ^ k ≤ d.value) : k < d.magnitude :=
  (zpow_lt_zpow_iff_right₀ (by norm_num)).mp (lt_of_le_of_lt h d.value_lt)

end SmallLisp
