import SmallLisp.Proofs.Number.Decimal

/-!
# The shortest digits read back

Seventeen digits always suffice: of the two decimals with seventeen digits around a float, the
nearer one lies within a `2 ^ -54`th of it (`near_of_digits`), and is therefore read as that float.
So the search for the fewest digits ends, and what it finds reads back (`shortest_toFloat`). It has
at most seventeen digits (`shortest_coefficient_le`), and no place after the point if the float is a
whole number of up to seventeen (`shortest_exponent_nonneg`).
-/

namespace SmallLisp

open Float.Model Float.Model.UnpackedFloat Binary64

/-! ## 1. The place of the first digit -/

/-- Scaled up to a whole part, a fraction shows its place by the number of digits. -/
theorem digitCount_scaled {num den : ℕ} {x : ℚ} (hx : (num : ℚ) / den = x) {k : ℕ}
    (h : 1 ≤ x * 10 ^ k) :
    (10 : ℚ) ^ ((digitCount (num * Nat.pow 10 k / den) : ℤ) - k - 1) ≤ x ∧
      x < 10 ^ ((digitCount (num * Nat.pow 10 k / den) : ℤ) - k) := by
  have hfloor : num * Nat.pow 10 k / den = ⌊x * 10 ^ k⌋₊ := by
    rw [← Nat.floor_div_eq_div (K := ℚ), Nat.pow_eq, ← hx, div_mul_eq_mul_div]
    push_cast
    rfl
  rw [hfloor]
  have hN : ⌊x * 10 ^ k⌋₊ ≠ 0 := (Nat.floor_pos.mpr h).ne'
  have hpos := digitCount_pos ⌊x * 10 ^ k⌋₊
  have hlow := ten_pow_le_of_lt_digitCount hN (by omega : digitCount ⌊x * 10 ^ k⌋₊ - 1 < _)
  have hhigh := lt_ten_pow_digitCount ⌊x * 10 ^ k⌋₊
  generalize digitCount ⌊x * 10 ^ k⌋₊ = D at hlow hhigh hpos
  have hle : (10 : ℚ) ^ (D - 1) ≤ x * 10 ^ k := by
    have := (Nat.le_floor_iff (by linarith)).mp hlow
    exact_mod_cast this
  have hlt : x * 10 ^ k < 10 ^ D := by
    have := (Nat.floor_lt (by linarith)).mp hhigh
    exact_mod_cast this
  have hscale : (0 : ℚ) < 10 ^ k := by positivity
  constructor
  · rw [show (D : ℤ) - k - 1 = ((D - 1 : ℕ) : ℤ) - k by omega, zpow_sub₀ (by norm_num),
      zpow_natCast, zpow_natCast]
    exact (div_le_iff₀ hscale).mpr hle
  · rw [zpow_sub₀ (by norm_num), zpow_natCast, zpow_natCast]
    exact (lt_div_iff₀ hscale).mpr hlt

/-- The least positive float is far above the deepest place. -/
theorem one_le_scaled {m : ℕ} (hm : 0 < m) {e : ℤ} (he : -1074 ≤ e) :
    (1 : ℚ) ≤ m * 2 ^ e * 10 ^ deepestPlace := by
  have hm' : (1 : ℚ) ≤ m := by exact_mod_cast hm
  have hpow : (2 : ℚ) ^ 1074 ≤ 10 ^ deepestPlace := two_pow_le_ten_pow 83 (by decide) (by decide)
  have hleast : (2 : ℚ) ^ (-1074 : ℤ) ≤ m * 2 ^ e :=
    (zpow_le_zpow_right₀ (by norm_num) he).trans (le_mul_of_one_le_left (two_zpow_pos e).le hm')
  calc (1 : ℚ) ≤ 2 ^ (-1074 : ℤ) * 10 ^ deepestPlace := by
        rw [zpow_neg, zpow_ofNat, inv_mul_eq_div]
        exact (one_le_div (by positivity)).mpr hpow
    _ ≤ m * 2 ^ e * 10 ^ deepestPlace := mul_le_mul_of_nonneg_right hleast (by positivity)

/-- A float lies below the power of ten of its leading place, and not below the one before. -/
theorem leadingPlace_spec {num den m : ℕ} {e : ℤ} (hm : 0 < m) (he : -1074 ≤ e)
    (h : (num : ℚ) / den = m * 2 ^ e) :
    (10 : ℚ) ^ (leadingPlace num den - 1) ≤ m * 2 ^ e ∧
      (m : ℚ) * 2 ^ e < 10 ^ leadingPlace num den :=
  digitCount_scaled h (one_le_scaled hm he)

/-! ## 2. The two decimals around a float -/

/-- A search at some precision only finds decimals that read back. -/
theorem readsAs_of_atPrecision {x : Float} {num den n : ℕ} {place : ℤ} {d : Decimal}
    (h : atPrecision x num den place n = some d) : d.readsAs x = true := by
  unfold atPrecision at h
  dsimp only at h
  split at h
  · rename_i hbelow habove
    split at h <;> cases h
    · exact hbelow
    · exact habove
  · rename_i hbelow _
    cases h
    exact hbelow
  · rename_i _ habove
    cases h
    exact habove
  · cases h

/-- Scaling numerator and denominator by powers of ten divides the fraction by `10 ^ unit`. -/
theorem scaled_fraction (num den : ℕ) (unit : ℤ) :
    ((num * Nat.pow 10 (-unit).toNat : ℕ) : ℚ) / (den * Nat.pow 10 unit.toNat : ℕ)
      = num / den / 10 ^ unit := by
  simp only [Nat.pow_eq]
  push_cast
  rcases le_total 0 unit with hu | hu
  · obtain ⟨k, rfl⟩ := Int.eq_ofNat_of_zero_le hu
    have hneg : (-(k : ℤ)).toNat = 0 := by omega
    rw [hneg, Int.toNat_natCast, zpow_natCast, pow_zero, mul_one, div_div]
  · obtain ⟨k, hk⟩ := Int.eq_ofNat_of_zero_le (by omega : 0 ≤ -unit)
    have hunit : unit = -(k : ℤ) := by omega
    have hzero : unit.toNat = 0 := by omega
    rw [hk, hzero, hunit, Int.toNat_natCast, zpow_neg, zpow_natCast, pow_zero, mul_one,
      div_inv_eq_mul, mul_div_right_comm]

/-- The quotient of the search is the whole number of units in the float. -/
theorem quotient_eq_floor {num den : ℕ} {x : ℚ} (hvalue : (num : ℚ) / den = x) (unit : ℤ) :
    num * Nat.pow 10 (-unit).toNat / (den * Nat.pow 10 unit.toNat) = ⌊x / 10 ^ unit⌋₊ := by
  rw [← hvalue, ← scaled_fraction, Nat.floor_div_eq_div]

/-- One of the two multiples of a unit around a number is no further than half a unit from it. -/
theorem near_multiple {x unit : ℚ} {k : ℕ} (hlow : (k : ℚ) * unit ≤ x)
    (hhigh : x < (k + 1 : ℕ) * unit) :
    |k * unit - x| ≤ unit / 2 ∨ |(k + 1 : ℕ) * unit - x| ≤ unit / 2 := by
  push_cast at hhigh ⊢
  by_cases hhalf : x - k * unit ≤ unit / 2
  · left
    rw [abs_sub_comm, abs_of_nonneg (by linarith)]
    exact hhalf
  · right
    rw [abs_of_nonneg (by linarith)]
    linarith

/-- With seventeen digits the unit is so small that half of it is within a `2 ^ -54`th. -/
theorem near_of_digits {x : ℚ} {unit : ℤ} (h : (10 : ℚ) ^ (unit + 16) ≤ x) {r : ℚ}
    (hr : |r - x| ≤ 10 ^ unit / 2) : |r - x| < x / 2 ^ 54 := by
  have hx := lt_of_lt_of_le (ten_zpow_pos _) h
  rw [zpow_add₀ (by norm_num)] at h
  refine lt_of_le_of_lt hr ?_
  rw [div_lt_div_iff₀ (by norm_num) (by norm_num)]
  norm_num at h ⊢
  linarith

theorem readsAs_of_near {x : Float} {m : ℕ} {e : ℤ} {hm : 0 < m}
    (hx : form x = .finite .positive m e hm) {d : Decimal} (h0 : d.coefficient ≠ 0)
    (h : |d.value - m * 2 ^ e| < m * 2 ^ e / 2 ^ 54) : d.readsAs x = true := by
  have hcanon := canonical_form x
  rw [hx] at hcanon
  unfold Decimal.readsAs
  rw [Decimal.toFloat_eq h0, nearest, roundForm_near hcanon h, ← hx, ofForm_form]
  exact beq_self (by rw [hx]; exact UnpackedFloat.noConfusion)

/-- The search finds something when one of the two decimals around the float reads back. -/
theorem atPrecision_isSome {x : Float} {num den n k : ℕ} {place unit : ℤ} (hunit : place - n = unit)
    (hk : num * Nat.pow 10 (-unit).toNat / (den * Nat.pow 10 unit.toNat) = k)
    (h : Decimal.readsAs ⟨k, unit⟩ x = true ∨ Decimal.readsAs ⟨k + 1, unit⟩ x = true) :
    (atPrecision x num den place n).isSome = true := by
  unfold atPrecision
  simp only [hunit, hk]
  rcases h with h | h <;> rw [h]
  · cases Decimal.readsAs ⟨k + 1, unit⟩ x
    · rfl
    · dsimp only
      split <;> rfl
  · cases Decimal.readsAs ⟨k, unit⟩ x
    · rfl
    · dsimp only
      split <;> rfl

/-- **Seventeen digits suffice.** -/
theorem atPrecision_seventeen {x : Float} {m : ℕ} {e : ℤ} {hm : 0 < m}
    (hx : form x = .finite .positive m e hm) {num den : ℕ}
    (hvalue : (num : ℚ) / den = m * 2 ^ e) :
    (atPrecision x num den (leadingPlace num den) 17).isSome = true := by
  have hcanon := canonical_form x
  rw [hx] at hcanon
  have hplace := (leadingPlace_spec hm hcanon.2.1 hvalue).1
  obtain ⟨unit, hunit⟩ : ∃ unit, leadingPlace num den - (17 : ℕ) = unit := ⟨_, rfl⟩
  rw [show leadingPlace num den - 1 = unit + 16 by omega] at hplace
  have hpow := ten_zpow_pos unit
  have hpos := lt_of_lt_of_le (ten_zpow_pos _) hplace
  obtain ⟨k, hk⟩ : ∃ k, num * Nat.pow 10 (-unit).toNat / (den * Nat.pow 10 unit.toNat) = k :=
    ⟨_, rfl⟩
  have hfloor : ⌊(m : ℚ) * 2 ^ e / 10 ^ unit⌋₊ = k := by rw [← quotient_eq_floor hvalue, hk]
  obtain ⟨hlow, hhigh⟩ := (Nat.floor_eq_iff (div_nonneg hpos.le hpow.le)).mp hfloor
  rw [le_div_iff₀ hpow] at hlow
  rw [div_lt_iff₀ hpow] at hhigh
  have hk0 : k ≠ 0 := by
    rintro rfl
    have hstep : (10 : ℚ) ^ unit ≤ 10 ^ (unit + 16) := zpow_le_zpow_right₀ (by norm_num) (by omega)
    push_cast at hhigh
    linarith
  have hreads {c : ℕ} (hc : c ≠ 0) (hnear : |(c : ℚ) * 10 ^ unit - m * 2 ^ e| ≤ 10 ^ unit / 2) :
      Decimal.readsAs ⟨c, unit⟩ x = true :=
    readsAs_of_near (d := ⟨c, unit⟩) hx hc (near_of_digits hplace hnear)
  apply atPrecision_isSome hunit hk
  rcases near_multiple hlow (by exact_mod_cast hhigh) with hnear | hnear
  · exact .inl (hreads hk0 hnear)
  · exact .inr (hreads (Nat.succ_ne_zero k) hnear)

/-! ## 3. The shortest decimal -/

theorem findSome?_range {α : Type} {f : ℕ → Option α} {n : ℕ} {a : α}
    (h : (List.range n).findSome? f = some a) : ∃ k < n, f k = some a ∧ ∀ j < k, f j = none := by
  induction n with
  | zero => cases h
  | succ n ih =>
    rw [List.range_succ, List.findSome?_append] at h
    cases hfound : (List.range n).findSome? f with
    | some b =>
      rw [hfound] at h
      cases h
      obtain ⟨k, hk, hfk, hbefore⟩ := ih hfound
      exact ⟨k, by omega, hfk, hbefore⟩
    | none =>
      rw [hfound] at h
      refine ⟨n, by omega, by simpa using h, fun j hj => ?_⟩
      exact List.findSome?_eq_none_iff.mp hfound j (List.mem_range.mpr hj)

section

variable {x : Float} {m : ℕ} {e : ℤ} {hm : 0 < m}

/-- How the search goes with one precision. -/
def shortestAt (x : Float) (n : ℕ) : Option Decimal :=
  atPrecision x (fraction x).1 (fraction x).2 (leadingPlace (fraction x).1 (fraction x).2) n

/-- The shortest decimal is what the first search finds that finds anything. -/
theorem shortest_found (hx : form x = .finite .positive m e hm) :
    ∃ k < 17, shortestAt x (k + 1) = some (shortest x) ∧ ∀ j < k, shortestAt x (j + 1) = none := by
  obtain ⟨-, hvalue⟩ := fraction_spec hx
  have hsome : (shortestAt x 17).isSome = true := atPrecision_seventeen hx hvalue
  have hsearch : shortest x = ((List.range 17).findSome? fun k => shortestAt x (k + 1)).getD
      ⟨(fraction x).1 / (fraction x).2, 0⟩ := rfl
  rw [hsearch]
  cases hfound : (List.range 17).findSome? fun k => shortestAt x (k + 1) with
  | none =>
    have hnone := List.findSome?_eq_none_iff.mp hfound 16 (by decide)
    rw [hnone] at hsome
    cases hsome
  | some d => exact findSome?_range hfound

/-- **The shortest digits of a positive float read back as that float.** -/
theorem shortest_toFloat (hx : form x = .finite .positive m e hm) : (shortest x).toFloat = x := by
  obtain ⟨k, -, hk, -⟩ := shortest_found hx
  exact eq_of_beq_finite hx (readsAs_of_atPrecision hk)

/-! ## 4. How short it is -/

/-- The search at a precision finds a decimal with this last place, which is not beyond the one
    above the float. -/
theorem atPrecision_bounds {num den n : ℕ} {place : ℤ} {d : Decimal}
    (h : atPrecision x num den place n = some d) :
    d.exponent = place - n ∧ d.coefficient ≤
      num * Nat.pow 10 (-(place - n)).toNat / (den * Nat.pow 10 (place - n).toNat) + 1 := by
  unfold atPrecision at h
  dsimp only at h
  split at h
  · split at h <;> cases h
    · exact ⟨rfl, Nat.le_succ _⟩
    · exact ⟨rfl, le_refl _⟩
  · cases h
    exact ⟨rfl, Nat.le_succ _⟩
  · cases h
    exact ⟨rfl, le_refl _⟩
  · cases h

theorem shortest_coefficient_le (hx : form x = .finite .positive m e hm) :
    (shortest x).coefficient ≤ 10 ^ 17 := by
  obtain ⟨k, hk, hat, -⟩ := shortest_found hx
  obtain ⟨-, hvalue⟩ := fraction_spec hx
  have hcanon := canonical_form x
  rw [hx] at hcanon
  obtain ⟨-, hhigh⟩ := leadingPlace_spec hm hcanon.2.1 hvalue
  obtain ⟨-, hle⟩ := atPrecision_bounds hat
  rw [quotient_eq_floor hvalue] at hle
  generalize leadingPlace _ _ = place at hhigh hle
  have hlt : ⌊(m : ℚ) * 2 ^ e / 10 ^ (place - (k + 1 : ℕ))⌋₊ < 10 ^ (k + 1) := by
    rw [Nat.floor_lt (by positivity), div_lt_iff₀ (ten_zpow_pos _)]
    push_cast
    rw [← zpow_natCast, ← zpow_add₀ (by norm_num)]
    push_cast
    rw [add_sub_cancel]
    exact hhigh
  calc (shortest x).coefficient ≤ 10 ^ (k + 1) := by omega
    _ ≤ 10 ^ 17 := Nat.pow_le_pow_right (by decide) hk

/-- A whole number of up to seventeen digits is a decimal without places after the point, and the
    search ends there at the latest. -/
theorem shortest_exponent_nonneg (hx : form x = .finite .positive m e hm) {n : ℕ}
    (hn : (m : ℚ) * 2 ^ e = n) (hlt : n < 10 ^ 17) : 0 ≤ (shortest x).exponent := by
  obtain ⟨k, hk, hat, hbefore⟩ := shortest_found hx
  obtain ⟨-, hvalue⟩ := fraction_spec hx
  have hcanon := canonical_form x
  rw [hx] at hcanon
  obtain ⟨hlow, hhigh⟩ := leadingPlace_spec hm hcanon.2.1 hvalue
  obtain ⟨hexponent, -⟩ := atPrecision_bounds hat
  have hfloor := quotient_eq_floor hvalue 0
  generalize hplace_eq : leadingPlace (fraction x).1 (fraction x).2 = place at hlow hhigh hexponent
  rw [hn] at hlow hhigh hfloor
  have hpos : 0 < n := by
    have : (0 : ℚ) < n := lt_of_lt_of_le (ten_zpow_pos _) hlow
    exact_mod_cast this
  have hplace : 0 < place := by
    by_contra hle
    have h1 : (10 : ℚ) ^ place ≤ 1 := zpow_le_one_of_nonpos₀ (by norm_num) (by omega)
    have h2 : (1 : ℚ) ≤ n := by exact_mod_cast hpos
    linarith
  have hplace' : place ≤ 17 := by
    by_contra hgt
    have h1 : (10 : ℚ) ^ (17 : ℤ) ≤ 10 ^ (place - 1) :=
      zpow_le_zpow_right₀ (by norm_num) (by omega)
    have h2 : (n : ℚ) < 10 ^ (17 : ℤ) := by exact_mod_cast hlt
    linarith
  obtain ⟨p, rfl⟩ := Int.eq_ofNat_of_zero_le hplace.le
  have hreads : Decimal.readsAs ⟨n, 0⟩ x = true := by
    refine readsAs_of_near hx hpos.ne' ?_
    rw [hn]
    simp [Decimal.value, hpos]
  rw [zpow_zero, div_one, Nat.floor_natCast] at hfloor
  have hsome : (shortestAt x p).isSome = true :=
    atPrecision_isSome (hplace_eq ▸ sub_self _) hfloor (.inl hreads)
  have hlast : k + 1 ≤ p := by
    by_contra hgt
    have hnone := hbefore (p - 1) (by omega)
    rw [Nat.sub_add_cancel (by omega)] at hnone
    rw [hnone] at hsome
    cases hsome
  omega

end

end SmallLisp
