import SmallLisp.Proofs.Number.Decimal

/-!
# The order of floats, and rounding

Positive floats are in the order of their values (`lt_iff_value`, `le_iff_value`). Rounding respects
that order at every float: what is not above a float is not rounded to one above it, and what is not
below it is not rounded to one below it (`roundedValue_le`, `le_roundedValue`). So a float that a
decimal is read as tells on which side of another float the decimal lies (`lt_of_toFloat_lt`,
`lt_of_lt_toFloat`).

A number is rounded to infinity if it lies halfway from the largest float to the next power of two
or beyond (`isInf_nearest_iff`).
-/

namespace SmallLisp

open Float.Model Float.Model.UnpackedFloat

namespace Binary64

/-! ## 1. The order of positive floats -/

section

variable {s : Sign} {m m' : ℕ} {e e' : ℤ} {hm : 0 < m} {hm' : 0 < m'}

/-- Of two floats the one with the smaller exponent is the smaller. -/
theorem value_lt_of_exponent_lt (h : Canonical (.finite s m e hm))
    (h' : Canonical (.finite s m' e' hm')) (he : e < e') : (m : ℚ) * 2 ^ e < m' * 2 ^ e' := by
  have hbits : 0x10000000000000 ≤ m' := by
    rcases h'.2.2.2 with hleast | hbits
    · have := h.2.1
      omega
    · exact hbits
  have hm53 : (m : ℚ) < 2 ^ 53 := by exact_mod_cast h.1
  have hm52 : (2 : ℚ) ^ 52 ≤ m' := by exact_mod_cast hbits
  calc (m : ℚ) * 2 ^ e < 2 ^ 53 * 2 ^ e := by gcongr
    _ = 2 ^ 52 * 2 ^ (e + 1) := by rw [zpow_add₀ (by norm_num)]; ring
    _ ≤ 2 ^ 52 * 2 ^ e' :=
        mul_le_mul_of_nonneg_left (zpow_le_zpow_right₀ (by norm_num) he) (by norm_num)
    _ ≤ m' * 2 ^ e' := by gcongr

theorem compare_positive (h : Canonical (.finite .positive m e hm))
    (h' : Canonical (.finite .positive m' e' hm')) :
    UnpackedFloat.compare (.finite .positive m e hm) (.finite .positive m' e' hm') =
      some (compare ((m : ℚ) * 2 ^ e) (m' * 2 ^ e')) := by
  show some ((compare e e').then (compare m m')) = _
  congr 1
  rcases lt_trichotomy e e' with he | rfl | he
  · rw [compare_lt_iff_lt.mpr he, compare_lt_iff_lt.mpr (value_lt_of_exponent_lt h h' he)]
    rfl
  · have hu := two_zpow_pos e
    rw [compare_eq_iff_eq.mpr (rfl : e = e)]
    show compare m m' = _
    rcases lt_trichotomy m m' with hlt | rfl | hlt
    · rw [compare_lt_iff_lt.mpr hlt, compare_lt_iff_lt.mpr]
      gcongr
    · rw [compare_eq_iff_eq.mpr (rfl : m = m), compare_eq_iff_eq.mpr rfl]
    · rw [compare_gt_iff_gt.mpr hlt, compare_gt_iff_gt.mpr]
      show (m' : ℚ) * 2 ^ e < m * 2 ^ e
      gcongr
  · rw [compare_gt_iff_gt.mpr he, compare_gt_iff_gt.mpr (value_lt_of_exponent_lt h' h he)]
    rfl

variable {x y : Float} (hx : form x = .finite .positive m e hm)
  (hy : form y = .finite .positive m' e' hm')

include hx hy

theorem compare_form : (form x).compare (form y) =
    some (compare ((m : ℚ) * 2 ^ e) (m' * 2 ^ e')) := by
  have h := canonical_form x
  have h' := canonical_form y
  rw [hx] at h
  rw [hy] at h'
  rw [hx, hy, compare_positive h h']

theorem lt_iff_value : x < y ↔ (m : ℚ) * 2 ^ e < m' * 2 ^ e' := by
  have hlt : x < y ↔ ((form x).compare (form y) == some .lt) = true := by
    show decide (x.toModel < y.toModel) = true ↔ _
    rw [decide_eq_true_iff]
    rfl
  rw [hlt, compare_form hx hy]
  simp [compare_lt_iff_lt]

theorem le_iff_value : x ≤ y ↔ (m : ℚ) * 2 ^ e ≤ m' * 2 ^ e' := by
  have hle : x ≤ y ↔ ((form x).compare (form y)).any Ordering.isLE = true := by
    show decide (x.toModel ≤ y.toModel) = true ↔ _
    rw [decide_eq_true_iff]
    rfl
  rw [hle, compare_form hx hy]
  show (compare ((m : ℚ) * 2 ^ e) (m' * 2 ^ e')).isLE = true ↔ _
  rw [Ordering.isLE_iff_ne_gt, compare_gt_iff_gt, not_lt]

theorem eq_of_value (h : (m : ℚ) * 2 ^ e = m' * 2 ^ e') : x = y := by
  have hcompare := compare_form hx hy
  rw [h, compare_eq_iff_eq.mpr rfl, hy] at hcompare
  apply form_injective
  rw [hy, eq_of_compare_finite hcompare]

end

/-! ## 2. Rounding respects the order -/

/-- The value of the float nearest to a positive number. -/
def roundedValue (r : ℚ) : ℚ := nearestEven (r / 2 ^ ulpExponent r) * 2 ^ ulpExponent r

section

variable {s : Sign} {m m' : ℕ} {e e' : ℤ} {hm : 0 < m} {hm' : 0 < m'} {r : ℚ}

theorem value_nearest (hr : 0 < r) (hx : form (nearest s r) = .finite s m e hm) :
    (m : ℚ) * 2 ^ e = roundedValue r := by
  rcases canonical_roundForm s hr with hcanon | hinf
  · rw [nearest, form_ofForm hcanon] at hx
    unfold roundForm unitsForm at hx
    unfold roundedValue
    have hbound := nearestEven_le (div_nonneg hr.le (two_zpow_pos _).le) (div_ulp_lt r)
    generalize nearestEven (r / 2 ^ ulpExponent r) = k at hx hbound ⊢
    generalize ulpExponent r = u at hx ⊢
    split at hx
    · cases hx
    · split at hx
      · cases hx
        rfl
      · cases hx
        have hk : k = 0x20000000000000 := by omega
        rw [hk, zpow_add₀ (by norm_num)]
        push_cast
        ring
  · rw [hinf, form_ofForm (u := .infinity s) trivial] at hx
    cases hx

theorem nearestEven_natCast (n : ℕ) : nearestEven n = n :=
  nearestEven_of_near (Nat.cast_nonneg n) (by norm_num)

/-- A number of units is one of smaller units too. -/
theorem exists_smaller_units (m : ℕ) {u e : ℤ} (h : u ≤ e) :
    ∃ k : ℕ, (m : ℚ) * 2 ^ e = k * 2 ^ u := by
  obtain ⟨n, hn⟩ := Int.eq_ofNat_of_zero_le (sub_nonneg.mpr h)
  refine ⟨m * 2 ^ n, ?_⟩
  rw [show e = n + u by omega, zpow_add₀ (by norm_num), zpow_natCast]
  push_cast
  ring

/-- What is not above a float is not rounded to one above it. -/
theorem roundedValue_le (h : Canonical (.finite s m e hm)) (hr : 0 < r)
    (hle : r ≤ m * 2 ^ e) : roundedValue r ≤ m * 2 ^ e := by
  have hulp : ulpExponent r ≤ e := by
    -- otherwise the number would have more bits than the float
    have hm53 : (m : ℚ) < 2 ^ 53 := by exact_mod_cast h.1
    have hlog : Int.log 2 r < 53 + e := by
      refine log_lt hr (lt_of_le_of_lt hle ?_)
      rw [zpow_add₀ (by norm_num), zpow_ofNat]
      gcongr
    have := h.2.1
    unfold ulpExponent
    omega
  obtain ⟨n, hunits⟩ := exists_smaller_units m hulp
  rw [hunits] at hle ⊢
  have hq : r / 2 ^ ulpExponent r ≤ n := (div_le_iff₀ (two_zpow_pos _)).mpr hle
  have hk : nearestEven (r / 2 ^ ulpExponent r) ≤ n := by
    rcases hq.lt_or_eq with hlt | heq
    · exact nearestEven_le (div_nonneg hr.le (two_zpow_pos _).le) hlt
    · rw [heq, nearestEven_natCast]
  unfold roundedValue
  gcongr

/-- What is not below a float is not rounded to one below it. -/
theorem le_roundedValue (h : Canonical (.finite s m e hm)) (hr : 0 < r)
    (hle : m * 2 ^ e ≤ r) : m * 2 ^ e ≤ roundedValue r := by
  unfold roundedValue
  rcases le_or_gt (ulpExponent r) e with hulp | hulp
  · obtain ⟨n, hunits⟩ := exists_smaller_units m hulp
    rw [hunits] at hle ⊢
    have hk := le_nearestEven ((le_div_iff₀ (two_zpow_pos _)).mpr hle)
    gcongr
  · -- the rounded number has all its bits in a larger unit
    have hbits := le_nearestEven_ulp hr (by have := h.2.1; omega)
    have hm53 : (m : ℚ) ≤ 2 ^ 53 := by exact_mod_cast h.1.le
    have hk : (2 : ℚ) ^ 52 ≤ nearestEven (r / 2 ^ ulpExponent r) := by exact_mod_cast hbits
    calc (m : ℚ) * 2 ^ e ≤ 2 ^ 53 * 2 ^ e := by gcongr
      _ = 2 ^ 52 * 2 ^ (e + 1) := by rw [zpow_add₀ (by norm_num)]; ring
      _ ≤ 2 ^ 52 * 2 ^ ulpExponent r :=
          mul_le_mul_of_nonneg_left (zpow_le_zpow_right₀ (by norm_num) hulp) (by norm_num)
      _ ≤ nearestEven (r / 2 ^ ulpExponent r) * 2 ^ ulpExponent r := by gcongr

end

/-! ## 3. The largest float -/

/-- Halfway from the largest float to the next power of two. -/
def overflowBound : ℚ := 2 ^ (1024 : ℤ) - 2 ^ (970 : ℤ)

/-- The bound in units of the largest exponent. -/
theorem overflowBound_eq : overflowBound = (2 ^ 53 - 1 / 2) * 2 ^ (971 : ℤ) := by
  have h53 : (2 : ℚ) ^ (1024 : ℤ) = 2 ^ 53 * 2 ^ (971 : ℤ) := by
    rw [← zpow_natCast, ← zpow_add₀ (by norm_num)]
    rfl
  have h971 : (2 : ℚ) ^ (971 : ℤ) = 2 * 2 ^ (970 : ℤ) := by
    rw [← zpow_one_add₀ (by norm_num)]
    rfl
  unfold overflowBound
  rw [h53, sub_mul, h971]
  ring

section

variable {r : ℚ}

/-- Below the bound a number is rounded to a float. -/
theorem canonical_of_lt_overflowBound (s : Sign) (hr : 0 < r) (h : r < overflowBound) :
    Canonical (roundForm s r) := by
  have hmin : -1074 ≤ ulpExponent r := le_max_right _ _
  have hbits := le_nearestEven_ulp hr
  have hmax : ulpExponent r ≤ 971 := by
    have hlog : Int.log 2 r < 1024 :=
      log_lt hr (h.trans (sub_lt_self _ (two_zpow_pos 970)))
    unfold ulpExponent
    omega
  -- in the largest unit there is no carry
  have hcarry : ulpExponent r = 971 → nearestEven (r / 2 ^ ulpExponent r) < 0x20000000000000 := by
    intro hulp
    have hq : r / 2 ^ (971 : ℤ) < 2 ^ 53 - 1 / 2 := by
      rw [div_lt_iff₀ (two_zpow_pos _), ← overflowBound_eq]
      exact h
    have hq0 : 0 ≤ r / 2 ^ (971 : ℤ) := div_nonneg hr.le (two_zpow_pos _).le
    rw [hulp]
    generalize r / 2 ^ (971 : ℤ) = q at hq hq0
    rcases lt_or_ge q ((0x1FFFFFFFFFFFFF : ℕ) : ℚ) with hlow | hhigh
    · have := nearestEven_le hq0 hlow
      omega
    · have hsame : nearestEven q = 0x1FFFFFFFFFFFFF := by
        apply nearestEven_of_near hq0
        push_cast at hhigh ⊢
        rw [abs_lt]
        constructor <;> linarith
      omega
  unfold roundForm unitsForm
  split
  · trivial
  · split
    · refine ⟨‹_›, hmin, hmax, ?_⟩
      by_cases hleast : ulpExponent r = -1074
      · exact .inl hleast
      · exact .inr (hbits hleast)
    · refine ⟨by decide, by omega, ?_, .inr (le_refl _)⟩
      by_contra hlarge
      exact absurd (hcarry (by omega)) ‹_›

/-- From the bound on a number is rounded to infinity: an exact half would go to the even mantissa,
    which has one bit too many. -/
theorem nearest_of_overflowBound_le (s : Sign) (h : overflowBound ≤ r) :
    nearest s r = ofForm (.infinity s) := by
  rcases lt_or_ge r (2 ^ (1024 : ℤ)) with hlt | hge
  · have h1023 : (2 : ℚ) ^ (1023 : ℤ) ≤ r := by
      have hdouble : (2 : ℚ) ^ (1024 : ℤ) = 2 * 2 ^ (1023 : ℤ) := by
        rw [← zpow_one_add₀ (by norm_num)]
        rfl
      have hsmall : (2 : ℚ) ^ (970 : ℤ) ≤ 2 ^ (1023 : ℤ) :=
        zpow_le_zpow_right₀ (by norm_num) (by norm_num)
      unfold overflowBound at h
      rw [hdouble] at h
      generalize (2 : ℚ) ^ (970 : ℤ) = a at h hsmall
      generalize (2 : ℚ) ^ (1023 : ℤ) = b at h hsmall
      linarith
    have hulp : ulpExponent r = 971 := by
      unfold ulpExponent
      rw [log_eq h1023 hlt]
      rfl
    have hlow : 2 ^ 53 - 1 / 2 ≤ r / 2 ^ (971 : ℤ) := by
      rw [le_div_iff₀ (two_zpow_pos _), ← overflowBound_eq]
      exact h
    have hhigh : r / 2 ^ (971 : ℤ) < 2 ^ 53 := by
      rw [div_lt_iff₀ (two_zpow_pos _), ← zpow_natCast, ← zpow_add₀ (by norm_num)]
      exact hlt
    have hcarry : nearestEven (r / 2 ^ (971 : ℤ)) = 0x20000000000000 := by
      generalize r / 2 ^ (971 : ℤ) = q at hlow hhigh
      rw [nearestEven_eq (f := 0x1FFFFFFFFFFFFF) (by push_cast; linarith) (by push_cast; linarith),
        if_neg (by push_cast; linarith)]
      split <;> rfl
    unfold nearest roundForm unitsForm
    rw [hulp, hcarry, dif_neg (by decide), if_neg (by decide)]
    exact ofForm_overflow s _ (by decide)
  · exact nearest_huge s hge

/-- **A number overflows from halfway past the largest float on.** -/
theorem isInf_nearest_iff (s : Sign) (hr : 0 < r) :
    (nearest s r).isInf = true ↔ overflowBound ≤ r := by
  have hform (x : Float) : x.isInf = (form x).isInf := rfl
  constructor
  · intro hinf
    by_contra hlt
    have hcanon := canonical_of_lt_overflowBound s hr (not_le.mp hlt)
    rw [hform, nearest, form_ofForm hcanon] at hinf
    unfold roundForm unitsForm at hinf
    split at hinf
    · cases hinf
    · split at hinf <;> cases hinf
  · intro hle
    rw [hform, nearest_of_overflowBound_le s hle, form_ofForm (u := .infinity s) trivial]
    rfl

end

end Binary64

/-! ## 4. Decimals -/

open Binary64

namespace Decimal

variable {d : Decimal} {m m' : ℕ} {e e' : ℤ} {hm : 0 < m} {hm' : 0 < m'}

theorem value_pos (h0 : d.coefficient ≠ 0) : 0 < d.value :=
  lt_of_lt_of_le (ten_zpow_pos _) (d.le_value h0)

theorem value_toFloat (h0 : d.coefficient ≠ 0) (hx : form d.toFloat = .finite .positive m e hm) :
    (m : ℚ) * 2 ^ e = roundedValue d.value := by
  rw [toFloat_eq h0] at hx
  exact value_nearest (value_pos h0) hx

/-- A decimal that is read as less than a float is less than that float. -/
theorem lt_of_toFloat_lt (h0 : d.coefficient ≠ 0)
    (hx : form d.toFloat = .finite .positive m e hm)
    (h : Canonical (.finite .positive m' e' hm')) (hlt : (m : ℚ) * 2 ^ e < m' * 2 ^ e') :
    d.value < m' * 2 ^ e' := by
  by_contra hge
  have hrounded := le_roundedValue h (value_pos h0) (not_lt.mp hge)
  rw [← value_toFloat h0 hx] at hrounded
  exact absurd hlt (not_lt.mpr hrounded)

/-- A decimal that is read as more than a float is more than that float. -/
theorem lt_of_lt_toFloat (h0 : d.coefficient ≠ 0)
    (hx : form d.toFloat = .finite .positive m e hm)
    (h : Canonical (.finite .positive m' e' hm')) (hlt : (m' : ℚ) * 2 ^ e' < m * 2 ^ e) :
    m' * 2 ^ e' < d.value := by
  by_contra hge
  have hrounded := roundedValue_le h (value_pos h0) (not_lt.mp hge)
  rw [← value_toFloat h0 hx] at hrounded
  exact absurd hlt (not_lt.mpr hrounded)

end Decimal

end SmallLisp
