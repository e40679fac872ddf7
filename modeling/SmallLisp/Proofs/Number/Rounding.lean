import SmallLisp.Proofs.Number.Binary64

/-!
# Rounding to the nearest float

`roundForm` says which float a positive rational number is rounded to: the number is measured in
units of the exponent that leaves 53 bits (`ulpExponent`), and the nearest whole number of units is
taken, an exact half going to the even one. The operations of the float model shift a mantissa bit
by bit instead and keep two bits of what is lost; `roundWithAccuracy_eq` says that this comes to the
same.

From it follow the values of products and quotients (`mul_eq`, `div_eq`), that numbers close to a
float are rounded to that float (`roundForm_near`), and what becomes of numbers that are too small
or too large (`roundForm_tiny`, `nearest_huge`).
-/

namespace SmallLisp

open Float.Model Float.Model.UnpackedFloat

namespace Binary64

/-! ## 1. The nearest float -/

/-- The exponent of the unit that a positive number is measured in. -/
def ulpExponent (r : ℚ) : ℤ := max (Int.log 2 r - 52) (-1074)

/-- The whole number nearest to a nonnegative number; an exact half goes to the even one. -/
def nearestEven (q : ℚ) : ℕ :=
  if q - ⌊q⌋₊ < 1 / 2 then ⌊q⌋₊
  else if q - ⌊q⌋₊ = 1 / 2 then ⌊q⌋₊ + ⌊q⌋₊ % 2
  else ⌊q⌋₊ + 1

/-- The form of `k` units of the exponent `e`. A mantissa that is one bit too long moves to the next
    exponent. -/
def unitsForm (s : Sign) (k : ℕ) (e : ℤ) : UnpackedFloat :=
  if h : k = 0 then .zero s
  else if k < 0x20000000000000 then .finite s k e (Nat.pos_of_ne_zero h)
  else .finite s 0x10000000000000 (e + 1) (by decide)

/-- The form of the float nearest to a positive number, with a sign. -/
def roundForm (s : Sign) (r : ℚ) : UnpackedFloat :=
  unitsForm s (nearestEven (r / 2 ^ ulpExponent r)) (ulpExponent r)

theorem nearestEven_eq {q : ℚ} {f : ℕ} (hle : (f : ℚ) ≤ q) (hlt : q < f + 1) :
    nearestEven q = if q - f < 1 / 2 then f else if q - f = 1 / 2 then f + f % 2 else f + 1 := by
  have hfloor : ⌊q⌋₊ = f := (Nat.floor_eq_iff (le_trans (Nat.cast_nonneg f) hle)).mpr ⟨hle, hlt⟩
  unfold nearestEven
  rw [hfloor]

theorem nearestEven_le {q : ℚ} (hq : 0 ≤ q) {n : ℕ} (h : q < n) : nearestEven q ≤ n := by
  have hfloor : ⌊q⌋₊ < n := (Nat.floor_lt hq).mpr h
  unfold nearestEven
  split
  · omega
  · split <;> omega

theorem le_nearestEven {q : ℚ} {n : ℕ} (h : (n : ℚ) ≤ q) : n ≤ nearestEven q := by
  have hfloor : n ≤ ⌊q⌋₊ := Nat.le_floor h
  unfold nearestEven
  split
  · omega
  · split <;> omega

theorem nearestEven_of_near {q : ℚ} {k : ℕ} (hq : 0 ≤ q) (h : |q - k| < 1 / 2) :
    nearestEven q = k := by
  obtain ⟨hlow, hhigh⟩ := abs_lt.mp h
  by_cases hle : (k : ℚ) ≤ q
  · rw [nearestEven_eq hle (by linarith), if_pos (by linarith)]
  · -- the whole part is one less, and the rest is past the half
    obtain ⟨f, rfl⟩ : ∃ f, k = f + 1 := by
      refine Nat.exists_eq_succ_of_ne_zero ?_
      rintro rfl
      exact hle (by exact_mod_cast hq)
    push_cast at hle hlow hhigh
    rw [nearestEven_eq (f := f) (by linarith) (by linarith), if_neg (by linarith),
      if_neg (by linarith)]

/-! ## 2. Shifting with two bits of what is lost -/

/-- An extended mantissa stands for `q`: its mantissa is the whole part, and its two bits say where
    the rest lies against one half. -/
structure Reflects (em : ExtendedMantissa) (q : ℚ) : Prop where
  le : (em.mantissa : ℚ) ≤ q
  lt : q < em.mantissa + 1
  round : em.roundBit = true ↔ 1 / 2 ≤ q - em.mantissa
  sticky : em.stickyBit = true ↔ q - em.mantissa ≠ 0 ∧ q - em.mantissa ≠ 1 / 2

theorem Reflects.roundedMantissa {em : ExtendedMantissa} {q : ℚ} (h : Reflects em q) :
    em.roundedMantissa = nearestEven q := by
  obtain ⟨m, roundBit, stickyBit⟩ := em
  obtain ⟨hle, hlt, hround, hsticky⟩ := h
  dsimp only at hle hlt hround hsticky
  rw [nearestEven_eq hle hlt]
  cases roundBit with
  | false =>
    have hlow : q - m < 1 / 2 := by simpa using hround
    rw [if_pos hlow]
    cases stickyBit <;> rfl
  | true =>
    have hhigh : ¬ q - m < 1 / 2 := not_lt.mpr (hround.mp rfl)
    rw [if_neg hhigh]
    cases stickyBit with
    | false =>
      have hhalf : q - m = 1 / 2 := by
        by_contra hne
        refine absurd (hsticky.mpr ⟨?_, hne⟩) (by decide)
        intro h0
        rw [h0] at hhigh
        norm_num at hhigh
      rw [if_pos hhalf]
      rfl
    | true =>
      rw [if_neg (hsticky.mp rfl).2]
      rfl

/-- Halving moves the last bit of the mantissa to the round bit, and what the two bits held before
    to the sticky bit. -/
theorem Reflects.shiftRightOne {em : ExtendedMantissa} {q : ℚ} (h : Reflects em q) :
    Reflects em.shiftRightOne (q / 2) := by
  obtain ⟨m, roundBit, stickyBit⟩ := em
  obtain ⟨hle, hlt, hround, hsticky⟩ := h
  dsimp only at hle hlt hround hsticky
  have hm : (m : ℚ) = 2 * (m / 2 : ℕ) + (m % 2 : ℕ) := by exact_mod_cast (Nat.div_add_mod m 2).symm
  have hlost : (roundBit || stickyBit) = true ↔ q - m ≠ 0 := by
    rw [Bool.or_eq_true, hround, hsticky]
    constructor
    · rintro (h | h)
      · intro h0
        rw [h0] at h
        norm_num at h
      · exact h.1
    · intro h
      by_cases hhalf : q - m = 1 / 2
      · exact .inl (le_of_eq hhalf.symm)
      · exact .inr ⟨h, hhalf⟩
  rcases Nat.mod_two_eq_zero_or_one m with hbit | hbit
  all_goals
    rw [hbit] at hm
    push_cast at hm
  · refine ⟨?_, ?_, ?_, ?_⟩ <;> dsimp only [ExtendedMantissa.shiftRightOne]
    · linarith
    · linarith
    · rw [hbit]
      constructor
      · intro h; cases h
      · intro h; linarith
    · rw [hlost]
      constructor
      · intro h
        exact ⟨fun h0 => h (by linarith), fun h0 => by linarith⟩
      · intro h h0
        exact h.1 (by linarith)
  · refine ⟨?_, ?_, ?_, ?_⟩ <;> dsimp only [ExtendedMantissa.shiftRightOne]
    · linarith
    · linarith
    · rw [hbit]
      constructor
      · intro; linarith
      · intro; rfl
    · rw [hlost]
      constructor
      · intro h
        exact ⟨fun h0 => by linarith, fun h0 => h (by linarith)⟩
      · intro h h0
        exact h.2 (by linarith)

theorem Reflects.shiftRight {em : ExtendedMantissa} {q : ℚ} (h : Reflects em q) (n : ℕ) :
    Reflects (em >>> n) (q / 2 ^ n) := by
  induction n with
  | zero => rw [pow_zero, div_one]; exact h
  | succ n ih => rw [pow_succ, ← div_div]; exact ih.shiftRightOne

theorem reflects_exact (m : ℕ) : Reflects (.ofMantissaAndAccuracy m .exact) m := by
  refine ⟨le_refl _, lt_add_one _, ?_, ?_⟩ <;>
    simp [ExtendedMantissa.ofMantissaAndAccuracy]

theorem reflects_inexact (m : ℕ) (o : Ordering) {rest : ℚ} (hpos : 0 < rest) (hlt : rest < 1)
    (hround : o ≠ .lt ↔ 1 / 2 ≤ rest) (hsticky : o ≠ .eq ↔ rest ≠ 1 / 2) :
    Reflects (.ofMantissaAndAccuracy m (.inexact o)) (m + rest) := by
  cases o
  all_goals
    refine ⟨?_, ?_, ?_, ?_⟩ <;>
      simp only [ExtendedMantissa.ofMantissaAndAccuracy, add_sub_cancel_left]
    · linarith
    · linarith
    · simpa using hround
    · simpa [hpos.ne'] using hsticky

/-- The accuracy of a quotient tells where its rest lies. -/
theorem reflects_fraction (m num den : ℕ) (h : num < den) :
    Reflects (.ofMantissaAndAccuracy m (accuracyOfFraction num den)) (m + num / den) := by
  have hden : (0 : ℚ) < den := by exact_mod_cast Nat.zero_lt_of_lt h
  unfold accuracyOfFraction
  split
  · rename_i h0
    subst h0
    simpa using reflects_exact m
  · rename_i h0
    have hnum : (0 : ℚ) < num := by exact_mod_cast Nat.pos_of_ne_zero h0
    apply reflects_inexact m _ (div_pos hnum hden)
    · exact (div_lt_one hden).mpr (by exact_mod_cast h)
    · rw [Ne, Nat.compare_eq_lt, not_lt, div_le_div_iff₀ (by norm_num) hden, one_mul, mul_comm]
      exact_mod_cast Iff.rfl
    · rw [Ne, Nat.compare_eq_eq, Ne, div_eq_div_iff hden.ne' (by norm_num), one_mul, mul_comm]
      exact_mod_cast Iff.rfl

/-! ## 3. The model rounds to the nearest float -/

theorem targetExponent_eq (t : ℤ) : Format.binary64.targetExponent t = max (t - 53) (-1074) := rfl

theorem two_zpow_pos (e : ℤ) : (0 : ℚ) < 2 ^ e := zpow_pos (by norm_num) e

theorem le_log {r : ℚ} {k : ℤ} (hr : 0 < r) (h : (2 : ℚ) ^ k ≤ r) : k ≤ Int.log 2 r :=
  (Int.zpow_le_iff_le_log (by decide) hr).mp (by exact_mod_cast h)

theorem log_lt {r : ℚ} {k : ℤ} (hr : 0 < r) (h : r < (2 : ℚ) ^ k) : Int.log 2 r < k :=
  (Int.lt_zpow_iff_log_lt (by decide) hr).mp (by exact_mod_cast h)

theorem log_eq {r : ℚ} {k : ℤ} (hle : (2 : ℚ) ^ k ≤ r) (hlt : r < 2 ^ (k + 1)) :
    Int.log 2 r = k := by
  have hr := lt_of_lt_of_le (two_zpow_pos k) hle
  have := le_log hr hle
  have := log_lt hr hlt
  omega

theorem le_log_units {q : ℚ} {e : ℤ} (n : ℕ) (h : (2 : ℚ) ^ n ≤ q) :
    n + e ≤ Int.log 2 (q * 2 ^ e) := by
  have hle : (2 : ℚ) ^ ((n : ℤ) + e) ≤ q * 2 ^ e := by
    rw [zpow_add₀ (by norm_num), zpow_natCast]
    gcongr
  exact le_log (lt_of_lt_of_le (two_zpow_pos _) hle) hle

theorem log_units_lt {q : ℚ} {e : ℤ} (n : ℕ) (hq : 0 < q) (h : q < (2 : ℚ) ^ n) :
    Int.log 2 (q * 2 ^ e) < n + e := by
  apply log_lt (mul_pos hq (two_zpow_pos e))
  rw [zpow_add₀ (by norm_num), zpow_natCast]
  gcongr

theorem two_zpow_le_mantissa {m : ℕ} (hm : m ≠ 0) (e : ℤ) :
    (2 : ℚ) ^ ((m.log2 : ℤ) + e) ≤ m * 2 ^ e := by
  rw [zpow_add₀ (by norm_num), zpow_natCast]
  gcongr
  exact_mod_cast Nat.log2_self_le hm

theorem mantissa_succ_le_two_zpow (m : ℕ) (e : ℤ) :
    ((m + 1 : ℕ) : ℚ) * 2 ^ e ≤ 2 ^ ((m.log2 : ℤ) + e + 1) := by
  rw [add_right_comm, zpow_add₀ (by norm_num), ← Nat.cast_succ, zpow_natCast]
  gcongr
  exact_mod_cast Nat.lt_log2_self

/-- The magnitude of a number is known from its mantissa. -/
theorem log_of_mantissa {m : ℕ} {e : ℤ} {r : ℚ} (hm : m ≠ 0) (hle : (m : ℚ) * 2 ^ e ≤ r)
    (hlt : r < ((m + 1 : ℕ) : ℚ) * 2 ^ e) : Int.log 2 r = m.log2 + e := by
  have hlow := two_zpow_le_mantissa hm e
  exact log_eq (hlow.trans hle) (lt_of_lt_of_le hlt (mantissa_succ_le_two_zpow m e))

/-- The exponent that the model aims at is that of the unit. -/
theorem targetExponent_totalExponent {m : ℕ} {e : ℤ} {r : ℚ} (hr : 0 < r)
    (hle : (m : ℚ) ≤ r / 2 ^ e) (hlt : r / 2 ^ e < m + 1) (he : e ≤ ulpExponent r) :
    Format.binary64.targetExponent (totalExponent m e) = ulpExponent r := by
  rw [le_div_iff₀ (two_zpow_pos e)] at hle
  rw [div_lt_iff₀ (two_zpow_pos e)] at hlt
  rw [targetExponent_eq]
  unfold totalExponent
  by_cases hm : m = 0
  · -- the number is below the unit of `e`, which only the least exponent allows
    subst hm
    have hlog : Int.log 2 r < e := log_lt hr (by push_cast at hlt; linarith)
    have hzero : Nat.log2 0 = 0 := by decide
    unfold ulpExponent at he ⊢
    rw [hzero]
    omega
  · have hlog := log_of_mantissa hm hle (by exact_mod_cast hlt)
    unfold ulpExponent
    rw [hlog]
    omega

/-- The mantissa at the unit of a number has at most 53 bits. -/
theorem div_ulp_lt (r : ℚ) : r / 2 ^ ulpExponent r < (0x20000000000000 : ℕ) := by
  rw [div_lt_iff₀ (two_zpow_pos _)]
  calc r < (2 : ℚ) ^ (Int.log 2 r + 1) := by exact_mod_cast Int.lt_zpow_succ_log_self (by decide) r
    _ ≤ 2 ^ (53 + ulpExponent r) := by
        apply zpow_le_zpow_right₀ (by norm_num)
        unfold ulpExponent
        omega
    _ = (0x20000000000000 : ℕ) * 2 ^ ulpExponent r := by
        rw [zpow_add₀ (by norm_num)]
        norm_num

theorem shiftToTargetExponent_eq (m : ℕ) (e : ℤ) (acc : Accuracy) :
    shiftToTargetExponent Format.binary64 m e acc
      = let n := (Format.binary64.targetExponent (totalExponent m e) - e).toNat
        (ExtendedMantissa.ofMantissaAndAccuracy m acc >>> n, e + n) := rfl

theorem shiftToTargetExponent_small {k : ℕ} {e : ℤ} (hk : k < 0x20000000000000) (he : -1074 ≤ e) :
    shiftToTargetExponent Format.binary64 k e .exact = (⟨k, false, false⟩, e) := by
  have hlog : k.log2 < 53 := by
    by_cases h0 : k = 0
    · subst h0
      decide
    · exact (Nat.log2_lt h0).mpr hk
  have hshift : (Format.binary64.targetExponent (totalExponent k e) - e).toNat = 0 := by
    rw [targetExponent_eq]
    unfold totalExponent
    omega
  simp only [shiftToTargetExponent_eq, hshift, Int.ofNat_zero, add_zero]
  rfl

theorem shiftToTargetExponent_carry {e : ℤ} (he : -1074 ≤ e) :
    shiftToTargetExponent Format.binary64 0x20000000000000 e .exact
      = (⟨0x10000000000000, false, false⟩, e + 1) := by
  have hshift :
      (Format.binary64.targetExponent (totalExponent 0x20000000000000 e) - e).toNat = 1 := by
    have hlog : Nat.log2 0x20000000000000 = 53 := by decide
    rw [targetExponent_eq]
    unfold totalExponent
    rw [hlog]
    omega
  rw [shiftToTargetExponent_eq, hshift]
  rfl

theorem shift_units (s : Sign) {k : ℕ} {e : ℤ} (hk : k ≤ 0x20000000000000) (he : -1074 ≤ e) :
    (let shifted := shiftToTargetExponent Format.binary64 k e .exact
     if h : shifted.1.mantissa = 0 then .zero s
     else .finite s shifted.1.mantissa shifted.2 (Nat.pos_of_ne_zero h)) = unitsForm s k e := by
  unfold unitsForm
  by_cases hcarry : k < 0x20000000000000
  · simp only [shiftToTargetExponent_small hcarry he, if_pos hcarry]
  · have hk' : k = 0x20000000000000 := by omega
    subst hk'
    simp only [shiftToTargetExponent_carry he]
    rfl

/-- **Rounding bit by bit gives the nearest float**, for a mantissa that has not lost more than its
    accuracy tells. -/
theorem roundWithAccuracy_eq (s : Sign) {m : ℕ} {e : ℤ} {acc : Accuracy} {r : ℚ} (hr : 0 < r)
    (h : Reflects (.ofMantissaAndAccuracy m acc) (r / 2 ^ e)) (he : e ≤ ulpExponent r) :
    roundWithAccuracy Format.binary64 s m e acc = roundForm s r := by
  have htarget : Format.binary64.targetExponent (totalExponent m e) = ulpExponent r := by
    have hle := h.le
    have hlt := h.lt
    have hmant : (ExtendedMantissa.ofMantissaAndAccuracy m acc).mantissa = m := by
      cases acc with
      | exact => rfl
      | inexact o => cases o <;> rfl
    rw [hmant] at hle hlt
    exact targetExponent_totalExponent hr hle hlt he
  obtain ⟨n, hn⟩ := Int.eq_ofNat_of_zero_le (sub_nonneg.mpr he)
  have hn' : ulpExponent r = e + n := by omega
  -- the first shift ends at the unit, where the mantissa is rounded
  have hfirst : shiftToTargetExponent Format.binary64 m e acc
      = (ExtendedMantissa.ofMantissaAndAccuracy m acc >>> n, ulpExponent r) := by
    rw [shiftToTargetExponent_eq, htarget, hn, hn']
    rfl
  have hrounded : (ExtendedMantissa.ofMantissaAndAccuracy m acc >>> n).roundedMantissa
      = nearestEven (r / 2 ^ ulpExponent r) := by
    rw [(h.shiftRight n).roundedMantissa, div_div, hn', zpow_add₀ (by norm_num), zpow_natCast]
  have hbound := nearestEven_le (div_nonneg hr.le (two_zpow_pos _).le) (div_ulp_lt r)
  -- the second shift only removes a carry
  unfold roundWithAccuracy roundForm
  rw [hfirst, ← hrounded]
  rw [← hrounded] at hbound
  exact shift_units s hbound (le_max_right _ _)

/-! ## 4. Conversion, products and quotients -/

theorem round_eq (s : Sign) {m : ℕ} (hm : m ≠ 0) (e : ℤ) :
    UnpackedFloat.round Format.binary64 s m e = roundForm s (m * 2 ^ e) := by
  have hr : (0 : ℚ) < m * 2 ^ e :=
    mul_pos (by exact_mod_cast Nat.pos_of_ne_zero hm) (two_zpow_pos e)
  have hlog : Int.log 2 ((m : ℚ) * 2 ^ e) = m.log2 + e := by
    apply log_of_mantissa hm (le_refl _)
    gcongr
    exact Nat.lt_succ_self m
  have htarget : Format.binary64.targetExponent (totalExponent m e) = ulpExponent (m * 2 ^ e) := by
    rw [targetExponent_eq]
    unfold totalExponent ulpExponent
    rw [hlog]
    omega
  unfold UnpackedFloat.round decreaseExponent
  simp only [htarget]
  generalize hn : (e - ulpExponent (m * 2 ^ e)).toNat = n
  apply roundWithAccuracy_eq s hr
  · have hvalue : (m : ℚ) * 2 ^ e / 2 ^ (e - n) = (m <<< n : ℕ) := by
      rw [mul_div_assoc, ← zpow_sub₀ (by norm_num), sub_sub_cancel, zpow_natCast,
        Nat.shiftLeft_eq, Nat.cast_mul, Nat.cast_pow, Nat.cast_ofNat]
    rw [hvalue]
    exact reflects_exact _
  · omega

/-- A factor with all its bits leaves the product no fewer bits than its unit. -/
theorem product_exponent_le {m₁ m₂ : ℕ} (h₁ : 0x10000000000000 ≤ m₁) (h₂ : 0 < m₂) (e₁ e₂ : ℤ) :
    e₁ + e₂ ≤ ulpExponent (m₁ * 2 ^ e₁ * (m₂ * 2 ^ e₂)) := by
  have hvalue : (m₁ : ℚ) * 2 ^ e₁ * (m₂ * 2 ^ e₂) = (m₁ * m₂) * 2 ^ (e₁ + e₂) := by
    rw [zpow_add₀ (by norm_num)]
    ring
  have hbits : (2 : ℚ) ^ 52 ≤ m₁ * m₂ := by
    have : 0x10000000000000 * 1 ≤ m₁ * m₂ := Nat.mul_le_mul h₁ h₂
    exact_mod_cast this
  have hlog := le_log_units (e := e₁ + e₂) 52 hbits
  rw [hvalue]
  unfold ulpExponent
  omega

theorem mul_eq {s₁ s₂ : Sign} {m₁ m₂ : ℕ} {e₁ e₂ : ℤ} {h₁ : 0 < m₁} (h₂ : 0 < m₂)
    (hbits : 0x10000000000000 ≤ m₁) :
    UnpackedFloat.mul Format.binary64 (.finite s₁ m₁ e₁ h₁) (.finite s₂ m₂ e₂ h₂)
      = roundForm (s₁ * s₂) (m₁ * 2 ^ e₁ * (m₂ * 2 ^ e₂)) := by
  unfold UnpackedFloat.mul
  refine roundWithAccuracy_eq _ ?_ ?_ (product_exponent_le hbits h₂ e₁ e₂)
  · have h₁' : (0 : ℚ) < m₁ := by exact_mod_cast h₁
    have h₂' : (0 : ℚ) < m₂ := by exact_mod_cast h₂
    exact mul_pos (mul_pos h₁' (two_zpow_pos e₁)) (mul_pos h₂' (two_zpow_pos e₂))
  · have hvalue : (m₁ : ℚ) * 2 ^ e₁ * (m₂ * 2 ^ e₂) / 2 ^ (e₁ + e₂) = (m₁ * m₂ : ℕ) := by
      rw [div_eq_iff (two_zpow_pos _).ne', zpow_add₀ (by norm_num)]
      push_cast
      ring
    rw [hvalue]
    exact reflects_exact _

/-- The exponent that a quotient is calculated at leaves no fewer bits than its unit. -/
theorem quotient_exponent_le {m₁ m₂ : ℕ} (h₁ : 0 < m₁) (h₂ : 0 < m₂) (e₁ e₂ : ℤ) :
    Format.binary64.targetExponent (totalExponent m₁ e₁ - totalExponent m₂ e₂)
      ≤ ulpExponent (m₁ * 2 ^ e₁ / (m₂ * 2 ^ e₂)) := by
  have h₂' : (0 : ℚ) < m₂ * 2 ^ e₂ := mul_pos (by exact_mod_cast h₂) (two_zpow_pos e₂)
  have hlow := two_zpow_le_mantissa h₁.ne' e₁
  have hhigh : (m₂ : ℚ) * 2 ^ e₂ ≤ 2 ^ ((m₂.log2 : ℤ) + e₂ + 1) := by
    refine le_trans ?_ (mantissa_succ_le_two_zpow m₂ e₂)
    gcongr
    exact Nat.le_succ m₂
  have hquot :
      (2 : ℚ) ^ ((m₁.log2 : ℤ) + e₁ - (m₂.log2 + e₂ + 1)) ≤ m₁ * 2 ^ e₁ / (m₂ * 2 ^ e₂) := by
    rw [zpow_sub₀ (by norm_num)]
    exact div_le_div₀ (le_trans (two_zpow_pos _).le hlow) hlow h₂' hhigh
  have hlog := le_log (lt_of_lt_of_le (two_zpow_pos _) hquot) hquot
  rw [targetExponent_eq]
  unfold totalExponent ulpExponent
  omega

theorem div_eq {s₁ s₂ : Sign} {m₁ m₂ : ℕ} {e₁ e₂ : ℤ} {h₁ : 0 < m₁} {h₂ : 0 < m₂} :
    UnpackedFloat.div Format.binary64 (.finite s₁ m₁ e₁ h₁) (.finite s₂ m₂ e₂ h₂)
      = roundForm (s₁ / s₂) (m₁ * 2 ^ e₁ / (m₂ * 2 ^ e₂)) := by
  have hle := quotient_exponent_le h₁ h₂ e₁ e₂
  have h₁' : (0 : ℚ) < m₁ := by exact_mod_cast h₁
  have h₂' : (0 : ℚ) < m₂ := by exact_mod_cast h₂
  unfold UnpackedFloat.div divCore
  dsimp only
  generalize Format.binary64.targetExponent (totalExponent m₁ e₁ - totalExponent m₂ e₂) = t at hle
  obtain ⟨n, hn⟩ : ∃ n : ℕ, e₁ - e₂ - min (e₁ - e₂) t = n :=
    Int.eq_ofNat_of_zero_le (by omega)
  rw [hn]
  apply roundWithAccuracy_eq
  · exact div_pos (mul_pos h₁' (two_zpow_pos e₁)) (mul_pos h₂' (two_zpow_pos e₂))
  · -- the quotient and its rest are those of the whole numbers
    have hvalue : (m₁ : ℚ) * 2 ^ e₁ / (m₂ * 2 ^ e₂) / 2 ^ (min (e₁ - e₂) t)
        = ((m₁ <<< n) / m₂ : ℕ) + ((m₁ <<< n) % m₂ : ℕ) / m₂ := by
      have hsplit : ((m₁ <<< n : ℕ) : ℚ) = m₂ * ((m₁ <<< n) / m₂ : ℕ) + ((m₁ <<< n) % m₂ : ℕ) := by
        exact_mod_cast (Nat.div_add_mod (m₁ <<< n) m₂).symm
      have hshift : ((m₁ <<< n : ℕ) : ℚ) = m₁ * 2 ^ n := by
        rw [Nat.shiftLeft_eq]
        push_cast
        ring
      have hpow : (2 : ℚ) ^ e₁ = 2 ^ n * (2 ^ e₂ * 2 ^ (min (e₁ - e₂) t)) := by
        rw [← zpow_natCast, ← zpow_add₀ (by norm_num), ← zpow_add₀ (by norm_num)]
        congr 1
        omega
      have hcancel := (two_zpow_pos e₂).ne'
      have hcancel' := (two_zpow_pos (min (e₁ - e₂) t)).ne'
      rw [hpow]
      generalize (2 : ℚ) ^ e₂ = a at hcancel
      generalize (2 : ℚ) ^ (min (e₁ - e₂) t) = b at hcancel'
      field_simp
      linarith
    rw [hvalue]
    exact reflects_fraction _ _ _ (Nat.mod_lt _ h₂)
  · omega

/-! ## 5. Numbers close to a float -/

theorem unitsForm_of_canonical {s : Sign} {m : ℕ} {e : ℤ} {hm : 0 < m}
    (h : Canonical (.finite s m e hm)) : unitsForm s m e = .finite s m e hm := by
  unfold unitsForm
  rw [dif_neg hm.ne', if_pos h.1]

/-- The unit of a number close to a float is that of the float, or the next smaller one where the
    number lies just below a power of two. -/
theorem ulpExponent_near {s : Sign} {m : ℕ} {e : ℤ} {hm : 0 < m}
    (h : Canonical (.finite s m e hm)) {q : ℚ} (hlow : (m : ℚ) - m / 2 ^ 54 < q)
    (hhigh : q < m + m / 2 ^ 54) :
    ulpExponent (q * 2 ^ e) = e ∨
      (ulpExponent (q * 2 ^ e) = e - 1 ∧ m = 0x10000000000000 ∧ q < m) := by
  obtain ⟨hm53, hmin, -, hnormal⟩ := h
  have hmpos : (1 : ℚ) ≤ m := by exact_mod_cast hm
  have hm' : (m : ℚ) + 1 ≤ 2 ^ 53 := by exact_mod_cast hm53
  have hlog : Int.log 2 (q * 2 ^ e) < 53 + e := log_units_lt 53 (by linarith) (by linarith)
  unfold ulpExponent
  by_cases hleast : e = -1074
  · exact .inl (by omega)
  · have h52 : 0x10000000000000 ≤ m := hnormal.resolve_left hleast
    by_cases hq : (2 : ℚ) ^ 52 ≤ q
    · have := le_log_units (e := e) 52 hq
      exact .inl (by omega)
    · -- below the power of two only the least mantissa is close enough
      have hm52 : m = 0x10000000000000 := by
        by_contra hne
        have : 0x10000000000000 + 1 ≤ m := by omega
        have : (2 : ℚ) ^ 52 + 1 ≤ m := by exact_mod_cast this
        exact hq (by linarith)
      have hmq : (m : ℚ) = 2 ^ 52 := by rw [hm52]; norm_num
      have h51 : (2 : ℚ) ^ 51 ≤ q := by
        rw [hmq] at hlow
        norm_num at hlow ⊢
        linarith
      have hlog' := le_log_units (e := e) 51 h51
      have hlog'' : Int.log 2 (q * 2 ^ e) < 52 + e :=
        log_units_lt 52 (by linarith) (by linarith)
      exact .inr ⟨by omega, hm52, by rw [hmq]; linarith⟩

/-- **A number within a `2 ^ -54`th of a float is rounded to it.** -/
theorem roundForm_near {s : Sign} {m : ℕ} {e : ℤ} {hm : 0 < m} (h : Canonical (.finite s m e hm))
    {r : ℚ} (hnear : |r - m * 2 ^ e| < m * 2 ^ e / 2 ^ 54) : roundForm s r = .finite s m e hm := by
  have hu := two_zpow_pos e
  have hmpos : (1 : ℚ) ≤ m := by exact_mod_cast hm
  have hm' : (m : ℚ) + 1 ≤ 2 ^ 53 := by exact_mod_cast h.1
  obtain ⟨q, rfl⟩ : ∃ q, r = q * 2 ^ e := ⟨r / 2 ^ e, (div_mul_cancel₀ r hu.ne').symm⟩
  obtain ⟨hlow, hhigh⟩ := abs_lt.mp hnear
  have hlow' : (m : ℚ) - m / 2 ^ 54 < q := by
    refine lt_of_mul_lt_mul_right ?_ hu.le
    linarith
  have hhigh' : q < m + m / 2 ^ 54 := by
    refine lt_of_mul_lt_mul_right ?_ hu.le
    linarith
  unfold roundForm
  rcases ulpExponent_near h hlow' hhigh' with hulp | ⟨hulp, rfl, hlt⟩
  · rw [hulp, mul_div_cancel_right₀ _ hu.ne', nearestEven_of_near (k := m) (by linarith)]
    · exact unitsForm_of_canonical h
    · rw [abs_lt]
      constructor <;> linarith
  · -- in the smaller unit the number rounds up to the power of two, which is a carry
    have hdouble : q * 2 ^ e / 2 ^ (e - 1) = q * 2 := by
      rw [mul_div_assoc, ← zpow_sub₀ (by norm_num), sub_sub_cancel, zpow_one]
    rw [hulp, hdouble, nearestEven_of_near (k := 0x20000000000000) (by linarith)]
    · unfold unitsForm
      rw [dif_neg (by decide), if_neg (by decide), sub_add_cancel]
    · rw [abs_lt]
      push_cast at hlow' hlt ⊢
      constructor <;> linarith

theorem roundForm_exact {s : Sign} {m : ℕ} {e : ℤ} {hm : 0 < m}
    (h : Canonical (.finite s m e hm)) : roundForm s (m * 2 ^ e) = .finite s m e hm := by
  apply roundForm_near h
  rw [sub_self, abs_zero]
  have : (0 : ℚ) < m := by exact_mod_cast hm
  exact div_pos (mul_pos this (two_zpow_pos e)) (by norm_num)

/-! ## 6. The range of floats -/

/-- The float nearest to a positive number, with a sign. -/
def nearest (s : Sign) (r : ℚ) : Float := ofForm (roundForm s r)

theorem ofForm_overflow (s : Sign) {m : ℕ} {e : ℤ} (hm : 0 < m) (he : 972 ≤ e) :
    ofForm (.finite s m e hm) = ofForm (.infinity s) := by
  have hbiased : 2 ^ Format.binary64.exponentBits
      ≤ (e + Format.binary64.exponentBias + Format.binary64.mantissaBitsWithoutImplicit).toNat
        + 1 := by
    show 2048 ≤ (e + 1023 + 52).toNat + 1
    omega
  have hpack : UnpackedFloat.pack Format.binary64 (.finite s m e hm)
      = UnpackedFloat.pack Format.binary64 (.infinity s) := by
    simp only [UnpackedFloat.pack, if_pos hbiased]
  unfold ofForm Float.Model.pack
  simp only [hpack]

/-- Above the least exponent a rounded mantissa has all its bits. -/
theorem le_nearestEven_ulp {r : ℚ} (hr : 0 < r) (h : ulpExponent r ≠ -1074) :
    0x10000000000000 ≤ nearestEven (r / 2 ^ ulpExponent r) := by
  have hulp : ulpExponent r = Int.log 2 r - 52 := by
    unfold ulpExponent at h ⊢
    omega
  apply le_nearestEven
  rw [le_div_iff₀ (two_zpow_pos _)]
  calc ((0x10000000000000 : ℕ) : ℚ) * 2 ^ ulpExponent r = 2 ^ ((52 : ℤ) + ulpExponent r) := by
        rw [zpow_add₀ (by norm_num)]
        norm_num
    _ = 2 ^ Int.log 2 r := by rw [hulp]; congr 1; omega
    _ ≤ r := by exact_mod_cast Int.zpow_log_le_self (by decide) hr

/-- A rounded number is a float as it stands, or too large. -/
theorem canonical_roundForm (s : Sign) {r : ℚ} (hr : 0 < r) :
    Canonical (roundForm s r) ∨ nearest s r = ofForm (.infinity s) := by
  have hmin : -1074 ≤ ulpExponent r := le_max_right _ _
  have hbits := le_nearestEven_ulp hr
  unfold nearest roundForm unitsForm
  split
  · exact .inl trivial
  · split
    · by_cases hmax : ulpExponent r ≤ 971
      · refine .inl ⟨‹_›, hmin, hmax, ?_⟩
        by_cases hleast : ulpExponent r = -1074
        · exact .inl hleast
        · exact .inr (hbits hleast)
      · exact .inr (ofForm_overflow s _ (by omega))
    · by_cases hmax : ulpExponent r + 1 ≤ 971
      · exact .inl ⟨by decide, by omega, hmax, .inr (le_refl _)⟩
      · exact .inr (ofForm_overflow s _ (by omega))

/-- Below half the least float everything is rounded to zero. -/
theorem roundForm_tiny (s : Sign) {r : ℚ} (hr : 0 < r) (h : r < 2 ^ (-1075 : ℤ)) :
    roundForm s r = .zero s := by
  have hlog := log_lt hr h
  have hulp : ulpExponent r = -1074 := by
    unfold ulpExponent
    omega
  have hhalf : r / 2 ^ (-1074 : ℤ) < 1 / 2 := by
    rw [div_lt_iff₀ (two_zpow_pos _)]
    calc r < 2 ^ (-1075 : ℤ) := h
      _ = 1 / 2 * 2 ^ (-1074 : ℤ) := by
          rw [show (-1075 : ℤ) = -1 + -1074 from rfl, zpow_add₀ (by norm_num)]
          norm_num
  have hnonneg : 0 ≤ r / 2 ^ (-1074 : ℤ) := div_nonneg hr.le (two_zpow_pos _).le
  unfold roundForm
  rw [hulp, nearestEven_of_near (k := 0) hnonneg]
  · rfl
  · rw [Nat.cast_zero, sub_zero, abs_of_nonneg hnonneg]
    exact hhalf

/-- Numbers past the largest float are rounded to infinity. -/
theorem nearest_huge (s : Sign) {r : ℚ} (h : 2 ^ (1024 : ℤ) ≤ r) :
    nearest s r = ofForm (.infinity s) := by
  have hr := lt_of_lt_of_le (two_zpow_pos _) h
  have hlog := le_log hr h
  have hulp : 972 ≤ ulpExponent r := by
    unfold ulpExponent
    omega
  have hbits := le_nearestEven_ulp hr (by omega)
  unfold nearest roundForm unitsForm
  rw [dif_neg (by omega)]
  split
  · exact ofForm_overflow s _ hulp
  · exact ofForm_overflow s _ (by omega)

end Binary64

end SmallLisp
