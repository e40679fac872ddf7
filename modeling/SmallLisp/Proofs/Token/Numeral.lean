import SmallLisp.Proofs.Number.Shortest
import SmallLisp.Proofs.Token.Runs

/-!
# Numbers in source form read back

A finite float is written in source form with its shortest digits in positional layout. The layout
keeps the value of the digits (`Digits.value_positional`), the digits read back as the float, and so
does the text (`classify_plain`).
-/

namespace SmallLisp

open Float.Model Float.Model.UnpackedFloat Binary64

/-! ## 1. Digits -/

theorem natOfDigits_append (a b : List Char) :
    natOfDigits (a ++ b) = natOfDigits a * 10 ^ b.length + natOfDigits b := by
  induction b using List.reverseRecOn with
  | nil => simp [natOfDigits]
  | append_singleton b c ih =>
    have hsnoc (l : List Char) : natOfDigits (l ++ [c])
        = 10 * natOfDigits l + (if c.isDigit then c.toNat - 48 else 0) := by
      simp [natOfDigits]
    rw [← List.append_assoc, hsnoc, ih, hsnoc, List.length_append, List.length_singleton, pow_succ]
    ring

theorem natOfDigits_zeros (n : ℕ) : natOfDigits (List.replicate n '0') = 0 := by
  induction n with
  | zero => rfl
  | succ n ih =>
    rw [List.replicate_succ', natOfDigits_append, ih]
    rfl

theorem natOfDigits_toDigits (n : ℕ) : natOfDigits (Nat.toDigits 10 n) = n := by
  have hdigits : ∀ c ∈ Nat.toDigits 10 n, c.isDigit = true :=
    fun c hc => Nat.isDigit_of_mem_toDigits (by decide) (by decide) hc
  have hfold (l : List Char) (k : ℕ) (h : ∀ c ∈ l, c.isDigit = true) :
      l.foldl (fun n c => 10 * n + (if c.isDigit then c.toNat - 48 else 0)) k
        = Nat.ofDigitChars 10 l k := by
    induction l generalizing k with
    | nil => simp
    | cons c l ih =>
      rw [List.foldl_cons, Nat.ofDigitChars_cons, if_pos (h c List.mem_cons_self)]
      exact ih _ fun c hc => h c (List.mem_cons_of_mem _ hc)
  unfold natOfDigits
  rw [hfold _ _ hdigits, Nat.ofDigitChars_ten_toDigits]

/-! ## 2. The positional layout -/

namespace Digits

/-- All digits are decimal digits. -/
def Proper (d : Digits) : Prop := ∀ c ∈ d.digits, c.isDigit = true

/-- The number that digits stand for. -/
def value (d : Digits) : ℚ := natOfDigits d.digits * 10 ^ (d.point - d.digits.length)

theorem isDigit_wholePart {d : Digits} (h : d.Proper) : ∀ c ∈ d.wholePart, c.isDigit = true := by
  intro c hc
  unfold wholePart at hc
  split at hc
  · simp only [List.mem_singleton] at hc
    rw [hc]
    rfl
  · rcases List.mem_append.mp hc with hc | hc
    · exact h c (List.mem_of_mem_take hc)
    · rw [(List.mem_replicate.mp hc).2]
      rfl

theorem isDigit_fractionPart {d : Digits} (h : d.Proper) :
    ∀ c ∈ d.fractionPart, c.isDigit = true := by
  intro c hc
  unfold fractionPart at hc
  split at hc
  · split at hc
    · cases hc
    · rcases List.mem_append.mp hc with hc | hc
      · rw [(List.mem_replicate.mp hc).2]
        rfl
      · exact h c hc
  · exact h c (List.mem_of_mem_drop hc)

theorem wholePart_ne_nil (d : Digits) : d.wholePart ≠ [] := by
  intro h
  have hlength := congrArg List.length h
  unfold wholePart at hlength
  split at hlength
  · cases hlength
  · simp only [List.length_append, List.length_take, List.length_replicate, List.length_nil]
      at hlength
    omega

/-- The layout keeps the value: its digits, read as one whole number, count units of the last place
    after the point. -/
theorem value_positional (d : Digits) :
    Decimal.value ⟨natOfDigits (d.wholePart ++ d.fractionPart), -d.fractionPart.length⟩
      = d.value := by
  obtain ⟨digits, point⟩ := d
  unfold Decimal.value value wholePart fractionPart
  dsimp only
  by_cases hpoint : point ≤ 0
  · simp only [if_pos hpoint]
    by_cases hempty : digits = []
    · subst hempty
      simp [natOfDigits]
    · -- zeros between the point and the digits
      have hisEmpty : digits.isEmpty = false := by simpa using hempty
      rw [hisEmpty, if_neg (by decide), natOfDigits_append, natOfDigits_append, natOfDigits_zeros]
      have hzero : natOfDigits ['0'] = 0 := rfl
      rw [hzero, zero_mul, zero_add, zero_mul, zero_add, List.length_append, List.length_replicate]
      congr 2
      push_cast
      omega
  · simp only [if_neg hpoint]
    obtain ⟨n, rfl⟩ := Int.eq_ofNat_of_zero_le (by omega : 0 ≤ point)
    rw [Int.toNat_natCast, List.length_drop]
    rcases le_total digits.length n with hlen | hlen
    · -- zeros between the digits and the point
      rw [List.take_of_length_le hlen, List.drop_of_length_le hlen, List.append_nil,
        natOfDigits_append, natOfDigits_zeros, List.length_replicate]
      rw [Nat.sub_eq_zero_of_le hlen]
      push_cast
      rw [mul_one, add_zero, ← zpow_natCast, Nat.cast_sub hlen]
    · rw [Nat.sub_eq_zero_of_le hlen, List.replicate_zero, List.append_nil, List.take_append_drop]
      congr 2
      omega

end Digits

/-- Every digit list ends with the zeros that are not written. -/
theorem strip_zeros (ds : List Char) :
    ∃ n, ds = (ds.reverse.dropWhile (· == '0')).reverse ++ List.replicate n '0' := by
  have hzeros : ds.reverse.takeWhile (· == '0')
      = List.replicate (ds.reverse.takeWhile (· == '0')).length '0' := by
    refine List.eq_replicate_of_mem fun c hc => ?_
    simpa using List.mem_takeWhile_imp hc
  refine ⟨(ds.reverse.takeWhile (· == '0')).length, ?_⟩
  rw [← List.reverse_inj]
  nth_rewrite 1 [← List.takeWhile_append_dropWhile (p := (· == '0')) (l := ds.reverse)]
  rw [List.reverse_append, List.reverse_reverse, List.reverse_replicate, ← hzeros]

theorem Decimal.proper_toDigits (d : Decimal) : d.toDigits.Proper := by
  intro c hc
  have hmem : c ∈ Nat.toDigits 10 d.coefficient := by
    have := (List.dropWhile_sublist _).mem (List.mem_reverse.mp hc)
    exact List.mem_reverse.mp this
  exact Nat.isDigit_of_mem_toDigits (by decide) (by decide) hmem

/-- Dropping zeros at the end keeps the value. -/
theorem Decimal.value_toDigits (d : Decimal) : d.toDigits.value = d.value := by
  obtain ⟨n, hn⟩ := strip_zeros (Nat.toDigits 10 d.coefficient)
  unfold Decimal.toDigits Digits.value Decimal.value
  dsimp only
  generalize ((Nat.toDigits 10 d.coefficient).reverse.dropWhile (· == '0')).reverse = stripped at hn
  have hvalue := natOfDigits_toDigits d.coefficient
  rw [hn, natOfDigits_append, natOfDigits_zeros, List.length_replicate, add_zero] at hvalue
  have hlength : (Nat.toDigits 10 d.coefficient).length = stripped.length + n := by
    rw [hn, List.length_append, List.length_replicate]
  have hpoint : ((Nat.toDigits 10 d.coefficient).length : ℤ) + d.exponent - stripped.length
      = n + d.exponent := by
    rw [hlength]
    push_cast
    ring
  rw [hpoint, zpow_add₀ (by norm_num), zpow_natCast, ← mul_assoc]
  rw [← hvalue]
  push_cast
  rfl

/-! ## 3. Reading the text -/

/-- A positional text starts with a digit. -/
theorem Digits.exists_cons_positional {d : Digits} (h : d.Proper) :
    ∃ c r, d.positional = c :: r ∧ c.isDigit = true := by
  obtain ⟨c, r, hwhole⟩ := List.exists_cons_of_ne_nil d.wholePart_ne_nil
  have hc : c.isDigit = true := isDigit_wholePart h c (by rw [hwhole]; exact List.mem_cons_self)
  unfold Digits.positional
  rw [hwhole]
  split
  · exact ⟨c, r, rfl, hc⟩
  · exact ⟨c, _, rfl, hc⟩

/-- Digits, and digits after a point if there is one, are read as a decimal. -/
theorem readMagnitude?_parts {whole : List Char} {fraction : Option (List Char)}
    (h : ∀ c ∈ whole ++ fraction.getD [], c.isDigit = true) :
    readMagnitude? (whole ++ fraction.elim [] ('.' :: ·)) = (
      let x := Decimal.toFloat
        ⟨natOfDigits (whole ++ fraction.getD []), -(fraction.getD []).length⟩
      if x.isInf then none else some x) := by
  have hwhole : ∀ c ∈ whole, c.isDigit = true := fun c hc => h c (List.mem_append_left _ hc)
  unfold readMagnitude?
  cases fraction with
  | none =>
    simp only [Option.elim_none, Option.getD_none, List.append_nil]
    rw [List.takeWhile_eq_self_iff.mpr hwhole, List.dropWhile_eq_nil_iff.mpr hwhole]
    rfl
  | some frac =>
    have hall : frac.all Char.isDigit = true :=
      List.all_eq_true.mpr fun c hc => h c (List.mem_append_right _ hc)
    have htake : (whole ++ '.' :: frac).takeWhile Char.isDigit = whole := by
      rw [List.takeWhile_append_of_pos hwhole]
      exact List.append_nil whole
    have hdrop : (whole ++ '.' :: frac).dropWhile Char.isDigit = '.' :: frac := by
      rw [List.dropWhile_append_of_pos hwhole]
      rfl
    simp only [Option.elim_some, Option.getD_some, htake, hdrop, hall, if_true]

/-- A positional text is read as its value. -/
theorem Digits.readMagnitude?_positional {d : Digits} (h : d.Proper) :
    readMagnitude? d.positional = (
      let x := Decimal.toFloat
        ⟨natOfDigits (d.wholePart ++ d.fractionPart), -d.fractionPart.length⟩
      if x.isInf then none else some x) := by
  have hdigits : ∀ c ∈ d.wholePart ++ d.fractionPart, c.isDigit = true := by
    intro c hc
    rcases List.mem_append.mp hc with hc | hc
    · exact isDigit_wholePart h c hc
    · exact isDigit_fractionPart h c hc
  unfold Digits.positional
  cases hparts : d.fractionPart with
  | nil =>
    have hread := @readMagnitude?_parts d.wholePart none (hparts ▸ hdigits)
    simpa only [Option.elim_none, Option.getD_none, List.append_nil] using hread
  | cons c frac => exact @readMagnitude?_parts d.wholePart (some (c :: frac)) (hparts ▸ hdigits)

/-- Reading the shortest digits in positional layout gives the float. -/
theorem readMagnitude?_shortest {x : Float} {m : ℕ} {e : ℤ} {hm : 0 < m}
    (hx : form x = .finite .positive m e hm) :
    readMagnitude? (shortest x).toDigits.positional = some x := by
  have hfloat : Decimal.toFloat ⟨natOfDigits ((shortest x).toDigits.wholePart
      ++ (shortest x).toDigits.fractionPart), -(shortest x).toDigits.fractionPart.length⟩ = x := by
    rw [← shortest_toFloat hx]
    apply Decimal.toFloat_congr
    rw [Digits.value_positional, Decimal.value_toDigits, shortest_toFloat hx]
  have hinf : x.isInf = false := by
    show (form x).isInf = false
    rw [hx]
    rfl
  rw [Digits.readMagnitude?_positional (Decimal.proper_toDigits _)]
  dsimp only
  rw [hfloat, hinf]
  rfl

theorem beq_zero_iff (x : Float) : (x == 0) = true ↔ ∃ s, form x = .zero s := by
  have hbeq : (x == 0) = ((form x).compare (.zero .positive) == some .eq) := rfl
  rw [hbeq]
  cases form x with
  | zero s => simp [UnpackedFloat.compare]
  | finite s m e hm => cases s <;> simp [UnpackedFloat.compare]
  | infinity s => cases s <;> simp [UnpackedFloat.compare]
  | notANumber => simp [UnpackedFloat.compare]

theorem proper_digitsOf (x : Float) : (digitsOf x).Proper := by
  unfold digitsOf
  split
  · intro c hc
    cases hc
  · exact Decimal.proper_toDigits _

theorem digitsOf_finite {x : Float} {s : Sign} {m : ℕ} {e : ℤ} {hm : 0 < m}
    (hx : form x = .finite s m e hm) : digitsOf x = (shortest x.abs).toDigits := by
  refine if_neg fun hzero => ?_
  obtain ⟨s', hs'⟩ := (beq_zero_iff x).mp hzero
  rw [hx] at hs'
  cases hs'

/-- The digits of a finite float read back as its magnitude. -/
theorem readMagnitude?_digitsOf {x : Float} (h : x.isFinite = true) :
    readMagnitude? (digitsOf x).positional = some x.abs := by
  rcases form_of_isFinite h with ⟨s, hx⟩ | ⟨s, m, e, hm, hx⟩
  · rw [digitsOf, if_pos ((beq_zero_iff x).mpr ⟨s, hx⟩), abs_of_zero hx]
    rfl
  · rw [digitsOf_finite hx]
    exact readMagnitude?_shortest (form_abs_finite hx)

theorem toList_layOut (layout : Digits → List Char) {x : Float} (h : x.isFinite = true) :
    (layOut layout x).toList = if isNegative x then '-' :: layout (digitsOf x)
      else layout (digitsOf x) := by
  have hnan : (form x).isNaN = false := by
    rcases form_of_isFinite h with ⟨s, hx⟩ | ⟨s, m, e, hm, hx⟩ <;> rw [hx] <;> rfl
  have hinf : (form x).isInf = false := by
    rcases form_of_isFinite h with ⟨s, hx⟩ | ⟨s, m, e, hm, hx⟩ <;> rw [hx] <;> rfl
  unfold layOut
  rw [show x.isNaN = false from hnan, show x.isInf = false from hinf, if_neg (by decide),
    if_neg (by decide), String.toList_ofList]

theorem toList_plain {x : Float} (h : x.isFinite = true) :
    (Number.plain x).toList = if isNegative x then '-' :: (digitsOf x).positional
      else (digitsOf x).positional := toList_layOut Digits.positional h

theorem startsNumber_digit {c : Char} (hc : c.isDigit = true) (r : List Char) :
    startsNumber (c :: r) = true ∧ startsNumber ('-' :: c :: r) = true := by
  have hminus : c ≠ '-' := by rintro rfl; cases hc
  have hdot : c ≠ '.' := by rintro rfl; cases hc
  constructor <;> simp [startsNumber, hminus, hdot, hc]

theorem readNumeral?_digit {c : Char} (hc : c.isDigit = true) (r : List Char) :
    readNumeral? (c :: r) = readMagnitude? (c :: r) := by
  have hminus : c ≠ '-' := by rintro rfl; cases hc
  simp [readNumeral?, hminus]

/-- **A finite float in source form reads back as that float.** -/
theorem classify_plain {x : Float} (h : x.isFinite = true) :
    classify (Number.plain x).toList = .ok (.number (Number.plain x) x) := by
  obtain ⟨c, r, hcons, hc⟩ := Digits.exists_cons_positional (proper_digitsOf x)
  have hmagnitude := readMagnitude?_digitsOf h
  have hsigned := signed_abs x
  have hnumber : startsNumber (Number.plain x).toList = true ∧
      readNumeral? (Number.plain x).toList = some x := by
    rw [toList_plain h]
    by_cases hneg : isNegative x = true
    · rw [hneg] at hsigned
      rw [if_pos hneg]
      refine ⟨by rw [hcons]; exact (startsNumber_digit hc r).2, ?_⟩
      show (readMagnitude? (digitsOf x).positional).map (signed true) = some x
      rw [hmagnitude, Option.map_some, hsigned]
    · rw [Bool.not_eq_true] at hneg
      rw [hneg] at hsigned
      rw [hneg, if_neg (by decide)]
      refine ⟨by rw [hcons]; exact (startsNumber_digit hc r).1, ?_⟩
      rw [hcons, readNumeral?_digit hc, ← hcons, hmagnitude]
      exact congrArg some hsigned
  unfold classify
  simp only [hnumber.1, hnumber.2, if_true, String.ofList_toList]

end SmallLisp
