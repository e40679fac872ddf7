import Mathlib
import SmallLisp.Number.Decimal

/-!
# The numbers that floats stand for

A float is a sign, an exponent and a mantissa packed into 64 bits. The forms that come out of the
bits are the canonical ones: the mantissa has 53 bits, or fewer at the least exponent. Between
canonical forms and floats the way goes both ways (`form_ofForm`, `ofForm_form`), so that a float is
known from its form (`form_injective`).

On this rest the facts about signs (`signed_abs`), about comparison (`eq_of_beq_finite`) and about
the exact value of a float (`fraction_spec`).
-/

namespace SmallLisp

open Float.Model Float.Model.UnpackedFloat

namespace Binary64

/-! ## 1. Fields of the bits -/

theorem toNat_unpackMantissa (b : BitVec Format.binary64.numBits) :
    (unpackMantissa b).toNat = b.toNat % 0x10000000000000 := by
  simp [unpackMantissa, BitVec.extractLsb_toNat]

theorem toNat_unpackExponent (b : BitVec Format.binary64.numBits) :
    (unpackExponent b).toNat = b.toNat / 0x10000000000000 % 2048 := by
  simp [unpackExponent, BitVec.extractLsb_toNat, Nat.shiftRight_eq_div_pow]

theorem toNat_unpackSign (b : BitVec Format.binary64.numBits) :
    (unpackSign b).toNat = b.toNat / 0x8000000000000000 % 2 := by
  simp [unpackSign, BitVec.extractLsb_toNat, Nat.shiftRight_eq_div_pow]

theorem toNat_append {k l : Nat} (x : BitVec k) (y : BitVec l) :
    (x ++ y).toNat = x.toNat * 2 ^ l + y.toNat := by
  rw [BitVec.toNat_append, ← Nat.shiftLeft_add_eq_or_of_lt y.isLt, Nat.shiftLeft_eq]

theorem toNat_packComponents (s : Sign) (e : BitVec 11) (m : BitVec 52) :
    (packComponents Format.binary64 s e m).toNat
      = s.toBitVec.toNat * 0x8000000000000000 + e.toNat * 0x10000000000000 + m.toNat := by
  unfold packComponents
  rw [toNat_append, toNat_append]
  simp only [Nat.add_mul, Nat.mul_assoc]
  rfl

theorem toBitVec_ofBitVec (b : BitVec 1) : (Sign.ofBitVec b).toBitVec = b := by
  rcases BitVec.eq_zero_or_eq_one b with rfl | rfl <;> rfl

theorem ofBitVec_toBitVec (s : Sign) : Sign.ofBitVec s.toBitVec = s := by cases s <;> rfl

/-- The fields of the bits make up the bits. -/
theorem packComponents_unpack (b : BitVec Format.binary64.numBits) :
    packComponents Format.binary64 (Sign.ofBitVec (unpackSign b)) (unpackExponent b)
      (unpackMantissa b) = b := by
  apply BitVec.eq_of_toNat_eq
  have hb : b.toNat < 0x10000000000000000 := b.isLt
  rw [toNat_packComponents, toBitVec_ofBitVec, toNat_unpackSign, toNat_unpackExponent,
    toNat_unpackMantissa]
  omega

theorem unpackSign_packComponents (s : Sign) (e : BitVec 11) (m : BitVec 52) :
    unpackSign (packComponents Format.binary64 s e m) = s.toBitVec := by
  apply BitVec.eq_of_toNat_eq
  have he := e.isLt
  have hm := m.isLt
  have hs := s.toBitVec.isLt
  rw [toNat_unpackSign, toNat_packComponents]
  omega

/-! ## 2. Canonical forms -/

/-- The forms of 64-bit floats: the mantissa of a finite one has 53 bits, or fewer at the least
    exponent. -/
def Canonical : UnpackedFloat → Prop
  | .finite _ m e _ =>
    m < 0x20000000000000 ∧ -1074 ≤ e ∧ e ≤ 971 ∧ (e = -1074 ∨ 0x10000000000000 ≤ m)
  | _ => True

theorem toNat_one_append (m : BitVec 52) : (1#1 ++ m).toNat = 0x10000000000000 + m.toNat := by
  rw [toNat_append]
  rfl

/-- How the form of a finite float other than zero comes out of its bits. -/
theorem unpack_finite {b : BitVec Format.binary64.numBits} {s : Sign} {m : Nat} {e : Int}
    {hm : 0 < m} (h : UnpackedFloat.unpack Format.binary64 b = .finite s m e hm) :
    s = Sign.ofBitVec (unpackSign b) ∧
      (((unpackExponent b).toNat = 0 ∧ m = (unpackMantissa b).toNat ∧ e = -1074) ∨
        ((unpackExponent b).toNat ≠ 0 ∧ (unpackExponent b).toNat ≠ 2047 ∧
          m = 0x10000000000000 + (unpackMantissa b).toNat ∧
          e = (unpackExponent b).toNat - 1075)) := by
  have hbias : (Format.binary64.exponentBias : Int) = 1023 := rfl
  unfold UnpackedFloat.unpack at h
  dsimp only at h
  split at h
  · split at h <;> cases h
  · rename_i hinf
    have hinf' : (unpackExponent b).toNat ≠ 2047 := fun he => hinf (BitVec.eq_of_toNat_eq he)
    split at h
    · rename_i hsub
      split at h
      · cases h
      · cases h
        have hzero : (unpackExponent b).toNat = 0 := by rw [hsub]; rfl
        refine ⟨rfl, .inl ⟨hzero, rfl, ?_⟩⟩
        rw [hzero, hbias]
        rfl
    · rename_i hsub
      have hsub' : (unpackExponent b).toNat ≠ 0 := fun he => hsub (BitVec.eq_of_toNat_eq he)
      cases h
      refine ⟨rfl, .inr ⟨hsub', hinf', toNat_one_append _, ?_⟩⟩
      rw [hbias]
      rfl

theorem canonical_unpack (b : BitVec Format.binary64.numBits) :
    Canonical (UnpackedFloat.unpack Format.binary64 b) := by
  cases h : UnpackedFloat.unpack Format.binary64 b with
  | finite s m e hm =>
    have hmant : (unpackMantissa b).toNat < 0x10000000000000 := (unpackMantissa b).isLt
    have hexp : (unpackExponent b).toNat < 2048 := (unpackExponent b).isLt
    obtain ⟨-, hshape⟩ := unpack_finite h
    unfold Canonical
    omega
  | _ => trivial

/-- The bits of a canonical finite form: below 53 bits of mantissa the exponent field is zero, and
    the mantissa field drops the highest of 53 bits. -/
theorem pack_finite {s : Sign} {m : Nat} {e : Int} {hm : 0 < m}
    (h : Canonical (.finite s m e hm)) :
    UnpackedFloat.pack Format.binary64 (.finite s m e hm) = packComponents Format.binary64 s
      (BitVec.ofNat 11 (if m < 0x10000000000000 then 0 else (e + 1075).toNat))
      (BitVec.ofNat 52 m) := by
  obtain ⟨hm53, hlo, hhi, -⟩ := h
  have hbiased : e + Format.binary64.exponentBias + Format.binary64.mantissaBitsWithoutImplicit
      = e + 1075 := by
    show e + (1023 : Int) + (52 : Int) = e + 1075
    omega
  have hsmall : ¬ 2 ^ Format.binary64.exponentBits ≤ (e + 1075).toNat + 1 := by
    show ¬ 2048 ≤ (e + 1075).toNat + 1
    omega
  unfold UnpackedFloat.pack
  simp only [hbiased, hsmall, if_false]
  by_cases hnormal : m < 0x10000000000000
  · have hlog : m.log2 + 1 ≠ Format.binary64.mantissaBits := by
      have : m.log2 < 52 := (Nat.log2_lt hm.ne').mpr hnormal
      show m.log2 + 1 ≠ 53
      omega
    rw [if_neg hlog, if_pos hnormal]
  · have hlog : m.log2 + 1 = Format.binary64.mantissaBits := by
      have hle : 52 ≤ m.log2 := (Nat.le_log2 hm.ne').mpr (Nat.le_of_not_lt hnormal)
      have hlt : m.log2 < 53 := (Nat.log2_lt hm.ne').mpr hm53
      show m.log2 + 1 = 53
      omega
    rw [if_pos hlog, if_neg hnormal]

/-- A canonical form is got back from its bits. -/
theorem unpack_packed {u : UnpackedFloat} (h : Canonical u) :
    UnpackedFloat.unpack Format.binary64 (UnpackedFloat.pack Format.binary64 u) = u := by
  cases u with
  | notANumber => rfl
  | infinity s => cases s <;> rfl
  | zero s => cases s <;> rfl
  | finite s m e hm =>
    rw [pack_finite h]
    obtain ⟨hm53, hlo, hhi, hsub⟩ := h
    unfold UnpackedFloat.unpack
    simp only [unpackExponent_packComponents, unpackMantissa_packComponents,
      unpackSign_packComponents, ofBitVec_toBitVec]
    by_cases hnormal : m < 0x10000000000000
    · have hmant : (BitVec.ofNat 52 m).toNat = m := by
        rw [BitVec.toNat_ofNat]
        omega
      have hne : BitVec.ofNat 52 m ≠ 0#52 := by
        intro h0
        rw [h0] at hmant
        exact absurd hmant.symm (Nat.ne_of_gt hm)
      have he : e = -1074 := by omega
      subst he
      simp only [if_pos hnormal, dif_neg hne, hmant]
      rfl
    · generalize hbiased : (e + 1075).toNat = biased
      have hexp : (BitVec.ofNat 11 biased).toNat = biased := by
        rw [BitVec.toNat_ofNat]
        omega
      have hmant : (1#1 ++ BitVec.ofNat 52 m).toNat = m := by
        rw [toNat_one_append, BitVec.toNat_ofNat]
        omega
      have hinf : BitVec.ofNat 11 biased ≠ -1#11 := by
        intro h0
        rw [h0] at hexp
        have : 2047 = biased := hexp
        omega
      have hzero : BitVec.ofNat 11 biased ≠ 0#11 := by
        intro h0
        rw [h0] at hexp
        have : 0 = biased := hexp
        omega
      have he : (biased : Int) - (Format.binary64.exponentBias + 52) = e := by
        show (biased : Int) - (1023 + 52) = e
        omega
      simp only [if_neg hnormal, if_neg hinf, if_neg hzero, hexp, hmant]
      exact congrArg (UnpackedFloat.finite s m · hm) he

theorem pack_unpacked_finite {b : BitVec Format.binary64.numBits} {s : Sign} {m : Nat} {e : Int}
    {hm : 0 < m} (h : UnpackedFloat.unpack Format.binary64 b = .finite s m e hm) :
    UnpackedFloat.pack Format.binary64 (.finite s m e hm) = b := by
  have hcanon := canonical_unpack b
  rw [h] at hcanon
  rw [pack_finite hcanon]
  have hmant : (unpackMantissa b).toNat < 0x10000000000000 := (unpackMantissa b).isLt
  have hexp : (unpackExponent b).toNat < 2048 := (unpackExponent b).isLt
  obtain ⟨rfl, hshape⟩ := unpack_finite h
  have he : BitVec.ofNat 11 (if m < 0x10000000000000 then 0 else (e + 1075).toNat)
      = unpackExponent b := by
    apply BitVec.eq_of_toNat_eq
    rw [BitVec.toNat_ofNat]
    split <;> omega
  have hm' : BitVec.ofNat 52 m = unpackMantissa b := by
    apply BitVec.eq_of_toNat_eq
    rw [BitVec.toNat_ofNat]
    omega
  rw [he, hm', packComponents_unpack]

/-- Bits with the one chosen pattern for what is not a number are got back from their form. -/
theorem pack_unpacked {b : BitVec Format.binary64.numBits} (h : Format.binary64.Valid b) :
    UnpackedFloat.pack Format.binary64 (UnpackedFloat.unpack Format.binary64 b) = b := by
  by_cases hfin : ∃ s m e hm, UnpackedFloat.unpack Format.binary64 b = .finite s m e hm
  · obtain ⟨s, m, e, hm, hu⟩ := hfin
    rw [hu]
    exact pack_unpacked_finite hu
  · -- what is left are the fields of infinity, of zero and of what is not a number
    have hfields := packComponents_unpack b
    unfold UnpackedFloat.unpack at hfin ⊢
    dsimp only at hfin ⊢
    by_cases hinf : unpackExponent b = -1#11
    · rw [if_pos hinf]
      split
      · rename_i hmant
        rw [hinf, hmant] at hfields
        exact hfields
      · rename_i hmant
        exact (h.eq_packedNaN hinf hmant).symm
    · rw [if_neg hinf] at hfin ⊢
      split
      · rename_i hzero
        split
        · rename_i hmant
          rw [hzero, hmant] at hfields
          exact hfields
        · rename_i hmant
          rw [if_pos hzero, dif_neg hmant] at hfin
          have hpos : 0 < (unpackMantissa b).toNat :=
            Nat.pos_of_ne_zero fun h0 => hmant (BitVec.eq_of_toNat_eq h0)
          exact absurd ⟨_, _, _, hpos, rfl⟩ hfin
      · rename_i hzero
        rw [if_neg hzero] at hfin
        have hpos : 0 < (1#1 ++ unpackMantissa b).toNat := by
          rw [toNat_one_append]
          omega
        exact absurd ⟨_, _, _, hpos, rfl⟩ hfin

/-! ## 3. Floats and their forms -/

/-- The form of a float. -/
def form (x : Float) : UnpackedFloat := x.toModel.unpack

/-- The float of a form. -/
def ofForm (u : UnpackedFloat) : Float := .ofModel (.pack u)

theorem canonical_form (x : Float) : Canonical (form x) := canonical_unpack _

theorem form_ofForm {u : UnpackedFloat} (h : Canonical u) : form (ofForm u) = u := unpack_packed h

theorem ofForm_form (x : Float) : ofForm (form x) = x := by
  obtain ⟨bits, valid⟩ := x
  unfold ofForm form Float.Model.unpack Float.Model.pack
  simp only [pack_unpacked valid]

theorem form_injective {x y : Float} (h : form x = form y) : x = y := by
  rw [← ofForm_form x, h, ofForm_form]

theorem form_neg (x : Float) : form (-x) = (form x).neg := by
  have h := canonical_form x
  refine form_ofForm (u := (form x).neg) ?_
  cases hx : form x with
  | finite s m e hm => rw [hx] at h; exact h
  | _ => trivial

theorem form_abs (x : Float) : form x.abs = (form x).abs := by
  have h := canonical_form x
  refine form_ofForm (u := (form x).abs) ?_
  cases hx : form x with
  | finite s m e hm => rw [hx] at h; exact h
  | _ => trivial

theorem compare_of_beq {x y : Float} (h : (x == y) = true) :
    (form x).compare (form y) = some .eq := by
  have hbeq : ((form x).compare (form y) == some .eq) = true := h
  exact eq_of_beq hbeq

theorem eq_of_compare_finite {u : UnpackedFloat} {s : Sign} {m : Nat} {e : Int} {hm : 0 < m}
    (h : u.compare (.finite s m e hm) = some .eq) : u = .finite s m e hm := by
  cases u with
  | finite s' m' e' hm' =>
    cases s <;> cases s' <;>
      simp_all [UnpackedFloat.compare, Ordering.then_eq_eq, Ordering.swap_eq_eq]
  | infinity s' => cases s' <;> cases s <;> simp [UnpackedFloat.compare] at h
  | zero s' => cases s <;> simp [UnpackedFloat.compare] at h
  | notANumber => simp [UnpackedFloat.compare] at h

/-- Floats other than zero are equal when they compare equal. -/
theorem eq_of_beq_finite {x y : Float} {s : Sign} {m : Nat} {e : Int} {hm : 0 < m}
    (hy : form y = .finite s m e hm) (h : (x == y) = true) : x = y := by
  have hcompare := compare_of_beq h
  rw [hy] at hcompare
  apply form_injective
  rw [hy, eq_of_compare_finite hcompare]

theorem beq_self {x : Float} (h : form x ≠ .notANumber) : (x == x) = true := by
  have hcompare : (form x).compare (form x) = some .eq := by
    cases hx : form x with
    | finite s m e hm => cases s <;> simp [UnpackedFloat.compare]
    | infinity s => cases s <;> rfl
    | zero s => rfl
    | notANumber => exact absurd hx h
  show ((form x).compare (form x) == some .eq) = true
  rw [hcompare]
  rfl

/-! ## 4. Signs -/

/-- The sign of a form. What is not a number has none, and its bits show a plus. -/
def signOf : UnpackedFloat → Sign
  | .infinity s | .zero s | .finite s _ _ _ => s
  | .notANumber => .positive

theorem exists_packComponents (u : UnpackedFloat) :
    ∃ e m, UnpackedFloat.pack Format.binary64 u
      = packComponents Format.binary64 (signOf u) e m := by
  cases u with
  | finite s m e hm =>
    unfold UnpackedFloat.pack
    dsimp only
    split
    · exact ⟨_, _, rfl⟩
    · split <;> exact ⟨_, _, rfl⟩
  | _ => exact ⟨_, _, rfl⟩

theorem isNegative_iff (x : Float) : isNegative x = true ↔ signOf (form x) = .negative := by
  obtain ⟨e, m, hpack⟩ := exists_packComponents (form x)
  have hbits : x.toBits.toNat = (packComponents Format.binary64 (signOf (form x)) e m).toNat := by
    rw [← hpack]
    nth_rewrite 1 [← ofForm_form x]
    rfl
  rw [toNat_packComponents] at hbits
  have he : e.toNat < 2048 := e.isLt
  have hm : m.toNat < 0x10000000000000 := m.isLt
  have hneg : isNegative x = true ↔ 0x8000000000000000 ≤ x.toBits.toNat := by
    unfold isNegative
    rw [decide_eq_true_iff, ge_iff_le, UInt64.le_iff_toNat_le]
    rfl
  rw [hneg, hbits]
  cases signOf (form x) <;> simp [Sign.toBitVec] <;> omega

/-- A float is its magnitude with its sign put back. -/
theorem signed_abs (x : Float) : signed (isNegative x) x.abs = x := by
  apply form_injective
  by_cases hneg : isNegative x = true
  · have hsign := (isNegative_iff x).mp hneg
    rw [signed, if_pos hneg, form_neg, form_abs]
    cases hx : form x with
    | notANumber => rfl
    | _ => rw [hx, signOf] at hsign; rw [hsign]; rfl
  · have hsign := mt (isNegative_iff x).mpr hneg
    rw [signed, if_neg hneg, form_abs]
    cases hx : form x with
    | notANumber => rfl
    | infinity s => cases s with
      | negative => exact absurd (by rw [hx]; rfl) hsign
      | positive => rfl
    | zero s => cases s with
      | negative => exact absurd (by rw [hx]; rfl) hsign
      | positive => rfl
    | finite s m e hm => cases s with
      | negative => exact absurd (by rw [hx]; rfl) hsign
      | positive => rfl

/-! ## 5. Magnitudes -/

/-- A finite float is zero or has a mantissa. -/
theorem form_of_isFinite {x : Float} (h : x.isFinite = true) :
    (∃ s, form x = .zero s) ∨ ∃ s m e hm, form x = .finite s m e hm := by
  have hfinite : (form x).isFinite = true := h
  cases hx : form x with
  | zero s => exact .inl ⟨s, rfl⟩
  | finite s m e hm => exact .inr ⟨s, m, e, hm, rfl⟩
  | infinity s => rw [hx] at hfinite; cases hfinite
  | notANumber => rw [hx] at hfinite; cases hfinite

theorem abs_of_zero {x : Float} {s : Sign} (hx : form x = .zero s) : x.abs = 0 := by
  apply form_injective
  rw [form_abs, hx]
  rfl

theorem form_abs_finite {x : Float} {s : Sign} {m : Nat} {e : Int} {hm : 0 < m}
    (hx : form x = .finite s m e hm) : form x.abs = .finite .positive m e hm := by
  rw [form_abs, hx]
  rfl

/-! ## 6. The exact value -/

/-- `m · 2 ^ q` as a fraction. -/
theorem fraction_value (m : Nat) (q : Int) :
    let f : Nat × Nat := if q < 0 then (m, Nat.pow 2 (-q).toNat) else (m * Nat.pow 2 q.toNat, 1)
    0 < f.2 ∧ (f.1 : ℚ) / f.2 = m * (2 : ℚ) ^ q := by
  by_cases hq : q < 0
  · have hq' : q = -((-q).toNat : Int) := by omega
    simp only [if_pos hq, Nat.pow_eq]
    refine ⟨Nat.pow_pos (by decide), ?_⟩
    nth_rewrite 2 [hq']
    rw [zpow_neg, zpow_natCast, div_eq_mul_inv, Nat.cast_pow, Nat.cast_ofNat]
  · have hq' : q = (q.toNat : Int) := by omega
    simp only [if_neg hq, Nat.pow_eq]
    refine ⟨Nat.one_pos, ?_⟩
    nth_rewrite 2 [hq']
    rw [zpow_natCast, Nat.cast_one, div_one, Nat.cast_mul, Nat.cast_pow, Nat.cast_ofNat]

/-- The magnitude of a finite float other than zero is its fraction. -/
theorem fraction_spec {x : Float} {s : Sign} {m : Nat} {e : Int} {hm : 0 < m}
    (hx : form x = .finite s m e hm) :
    0 < (fraction x).2 ∧ ((fraction x).1 : ℚ) / (fraction x).2 = m * (2 : ℚ) ^ e := by
  obtain ⟨-, hshape⟩ := unpack_finite hx
  rw [toNat_unpackExponent, toNat_unpackMantissa] at hshape
  have hbits : x.toModel.toBits.toBitVec.toNat = x.toBits.toNat := rfl
  rw [hbits] at hshape
  have hexp : x.toBits.toNat % 0x8000000000000000 / hiddenBit
      = x.toBits.toNat / 0x10000000000000 % 2048 := by
    unfold hiddenBit
    omega
  have hmant : x.toBits.toNat % 0x8000000000000000 % hiddenBit
      = x.toBits.toNat % 0x10000000000000 := by
    unfold hiddenBit
    omega
  have hvalue := fraction_value m e
  unfold fraction
  simp only [hexp, hmant]
  rcases hshape with ⟨hzero, hm', he⟩ | ⟨hzero, -, hm', he⟩
  · rw [hm', he] at hvalue
    rw [if_pos hzero, hm', he]
    exact hvalue
  · have hq : ((x.toBits.toNat / 0x10000000000000 % 2048 : Nat) : Int) - 1075 = e := he.symm
    have hsum : x.toBits.toNat % 0x10000000000000 + hiddenBit = m := by
      rw [hm', Nat.add_comm]
      rfl
    rw [if_neg hzero, hq, hsum]
    exact hvalue

end Binary64

end SmallLisp
