import SmallLisp.Interchange.JsonNumber
import SmallLisp.Proofs.Number.Decimal

/-!
# How JSON numbers are read

A number in JSON is a `Numeral`: digits, perhaps digits after a point, and perhaps an exponent. What
it stands for is a decimal (`Numeral.decimal`). The full way of reading finds this decimal
(`decimal?_text`). The quick way keeps only as many digits as there is room for and counts places in
eight bits; as long as the count does not wrap it finds a decimal of the same value, or leaves the
number to the full way (`quickDecimal_text`). So both ways come to the same float (`float?_text`).

The quick way is followed digit by digit: `Tally.Reflects` says what a tally knows of the digits
that were read, `Tally.Reflects.push` what one more digit does to it, and `Tally.Reflects.scan` what
a run of digits does.
-/

namespace SmallLisp.Json

/-! ## 1. Digits -/

theorem natOf_snoc (ds : Text) (b : UInt8) :
    natOf (ds ++ [b]) = 10 * natOf ds + (b.toNat - 48) := by
  simp [natOf]

theorem isDigit_iff (b : UInt8) : isDigit b = true ↔ 48 ≤ b.toNat ∧ b.toNat ≤ 57 := by
  unfold isDigit
  rw [Bool.and_eq_true, decide_eq_true_iff, decide_eq_true_iff, UInt8.le_iff_toNat_le,
    UInt8.le_iff_toNat_le]
  rfl

theorem natOf_lt {ds : Text} (h : ∀ b ∈ ds, isDigit b = true) : natOf ds < 10 ^ ds.length := by
  induction ds using List.reverseRecOn with
  | nil => decide
  | append_singleton ds b ih =>
    have hb := (isDigit_iff b).mp (h b (by simp))
    have hds := ih fun c hc => h c (List.mem_append_left _ hc)
    rw [natOf_snoc, List.length_append, List.length_singleton, pow_succ]
    omega

/-! ## 2. Numerals -/

/-- A number as JSON writes it, without its sign. -/
structure Numeral where
  whole : Text
  /-- The digits after the point, if there is one. -/
  fraction : Option Text
  /-- The digits of the exponent, if there is one; `true` if it is negative. -/
  exponent : Option (Bool × Text)

namespace Numeral

/-- The point and the digits after it. -/
def fractionText : Option Text → Text
  | none => []
  | some ds => 0x2E :: ds

/-- The mark of an exponent, its sign and its digits. -/
def exponentText : Option (Bool × Text) → Text
  | none => []
  | some (negative, ds) => 0x65 :: (if negative then 0x2D else 0x2B) :: ds

/-- The power of ten that an exponent stands for. -/
def power : Option (Bool × Text) → Int
  | none => 0
  | some (negative, ds) => if negative then -(natOf ds : Int) else natOf ds

/-- The text of a numeral. -/
def text (n : Numeral) : Text := n.whole ++ (fractionText n.fraction ++ exponentText n.exponent)

/-- All digits but those of the exponent. -/
def digits (n : Numeral) : Text := n.whole ++ n.fraction.getD []

/-- The decimal that a numeral stands for. -/
def decimal (n : Numeral) : Decimal :=
  ⟨natOf n.digits, power n.exponent - (n.fraction.getD []).length⟩

/-- Digits are where they belong, before the point too, and an exponent has up to four. -/
structure Proper (n : Numeral) : Prop where
  whole_ne_nil : n.whole ≠ []
  whole : ∀ b ∈ n.whole, isDigit b = true
  fraction : ∀ ds, n.fraction = some ds → ∀ b ∈ ds, isDigit b = true
  exponent : ∀ negative ds, n.exponent = some (negative, ds) →
    ds ≠ [] ∧ ds.length ≤ 4 ∧ ∀ b ∈ ds, isDigit b = true

/-- There are so few digits that places can be counted in eight bits. -/
def Short (n : Numeral) : Prop :=
  n.digits.length + (if n.exponent.isSome then 99 else 0) ≤ 127

end Numeral

/-! ## 3. The full way -/

theorem exponentSize_eq {ds : Text} (hlength : ds.length ≤ 4) (h : ∀ b ∈ ds, isDigit b = true) :
    exponentSize ds = natOf ds := by
  induction ds using List.reverseRecOn with
  | nil => rfl
  | append_singleton ds b ih =>
    rw [List.length_append, List.length_singleton] at hlength
    have hds : ∀ c ∈ ds, isDigit c = true := fun c hc => h c (List.mem_append_left _ hc)
    have hlt : natOf ds < 10000 := by
      calc natOf ds < 10 ^ ds.length := natOf_lt hds
        _ ≤ 10 ^ 4 := Nat.pow_le_pow_right (by decide) (by omega)
    have hsnoc : exponentSize (ds ++ [b]) = if exponentSize ds < 10000 then
        10 * exponentSize ds + (b.toNat - 48) else exponentSize ds := by
      unfold exponentSize
      rw [List.foldl_append]
      rfl
    rw [hsnoc, ih (by omega) hds, if_pos hlt, natOf_snoc]

namespace Numeral

variable {n : Numeral}

theorem splitSign_exponent (negative : Bool) (ds : Text) :
    splitSign ((if negative then 0x2D else 0x2B) :: ds) = (negative, ds) := by
  cases negative <;> rfl

theorem exponent?_text (h : n.Proper) :
    exponent? (exponentText n.exponent) = some (power n.exponent) := by
  cases hexp : n.exponent with
  | none => rfl
  | some e =>
    obtain ⟨negative, ds⟩ := e
    obtain ⟨hne, hlength, hdigits⟩ := h.exponent negative ds hexp
    have hall : ds.all isDigit = true := List.all_eq_true.mpr hdigits
    have hempty : ds.isEmpty = false := by simpa using hne
    have hmark : isExponentMark 0x65 = true := rfl
    simp only [exponentText, exponent?, splitSign_exponent, hmark, hempty, hall, Bool.not_false,
      Bool.and_self, if_true, exponentSize_eq hlength hdigits, power]

/-- No digit comes after a run of digits of a numeral. -/
theorem takeWhile_exponentText (e : Option (Bool × Text)) :
    (exponentText e).takeWhile isDigit = [] ∧
      (exponentText e).dropWhile isDigit = exponentText e := by
  cases e <;> exact ⟨rfl, rfl⟩

/-- The full way without a point. -/
theorem decimal?_of_no_point {t : Text} {e : Option (Bool × Text)}
    (hdrop : t.dropWhile isDigit = exponentText e) :
    decimal? t = if (t.takeWhile isDigit).isEmpty then none
      else (exponent? (exponentText e)).map fun e => ⟨natOf (t.takeWhile isDigit), e⟩ := by
  unfold decimal?
  rw [hdrop]
  cases e with
  | none => simp [exponentText]
  | some e => simp [exponentText]

/-- The full way with a point. -/
theorem decimal?_of_point {t : Text} (more : Text) (hdrop : t.dropWhile isDigit = 0x2E :: more) :
    decimal? t =
      if (t.takeWhile isDigit ++ more.takeWhile isDigit).isEmpty then none
      else (exponent? (more.dropWhile isDigit)).map fun e =>
        ⟨natOf (t.takeWhile isDigit ++ more.takeWhile isDigit),
          e - (more.takeWhile isDigit).length⟩ := by
  unfold decimal?
  simp only [hdrop]

/-- **The full way finds the decimal of a numeral.** -/
theorem decimal?_text (h : n.Proper) : decimal? n.text = some n.decimal := by
  have hwhole := h.whole
  have hne := h.whole_ne_nil
  obtain ⟨htake, hdrop⟩ := takeWhile_exponentText n.exponent
  have hexponent := exponent?_text h
  unfold text decimal digits
  cases hfraction : n.fraction with
  | none =>
    rw [decimal?_of_no_point (e := n.exponent)]
    · simp [fractionText, List.takeWhile_append_of_pos hwhole, htake, hne, hexponent]
    · simp [fractionText, List.dropWhile_append_of_pos hwhole, hdrop]
  | some ds =>
    have hds := h.fraction ds hfraction
    have hpoint (t : Text) : List.takeWhile isDigit (0x2E :: t) = [] := rfl
    have hpoint' (t : Text) : List.dropWhile isDigit (0x2E :: t) = 0x2E :: t := rfl
    rw [decimal?_of_point (ds ++ exponentText n.exponent)]
    · simp [fractionText, List.takeWhile_append_of_pos hwhole, List.takeWhile_append_of_pos hds,
        List.dropWhile_append_of_pos hds, htake, hdrop, hne, hexponent, hpoint]
    · simp [fractionText, List.dropWhile_append_of_pos hwhole, hpoint']

end Numeral

/-! ## 4. Tallies -/

namespace Tally

variable {t : Tally} {ds : Text} {after : Option Nat} {kept counted : Nat}

/-- The tally is that of the digits `ds`, of which the first `kept` that matter are in the mantissa
    and `counted` matter; `after` of them come after the point, if there is one. -/
structure Reflects (t : Tally) (ds : Text) (after : Option Nat) (kept counted : Nat) : Prop where
  kept_eq : t.kept = Int8.ofInt kept
  counted_eq : t.counted = Int8.ofInt counted
  point_eq : t.point = after.map fun k : Nat => Int8.ofInt (counted - k)
  kept_le : kept ≤ counted
  counted_le : counted ≤ ds.length
  natOf_eq : natOf ds = t.mantissa * 10 ^ (counted - kept)
  full : kept < counted → largest ≤ t.mantissa
  nothing : counted = 0 → t.mantissa = 0

theorem reflects_start : start.Reflects [] none 0 0 :=
  ⟨rfl, rfl, rfl, le_refl _, le_refl _, rfl, fun h => absurd h (lt_irrefl _), fun _ => rfl⟩

theorem ofInt_eq_zero {n : Nat} (h : n ≤ 127) : Int8.ofInt n = 0 ↔ n = 0 := by
  rw [← Int8.toInt_inj, Int8.toInt_ofInt_of_le (by omega) (by omega)]
  show (n : Int) = 0 ↔ n = 0
  omega

/-- One digit more. -/
theorem Reflects.push (h : t.Reflects ds after kept counted) (hlength : ds.length ≤ 127)
    (b : UInt8) :
    t.push (b.toNat - 48) = none ∨ ∃ t' kept' counted', t.push (b.toNat - 48) = some t' ∧
      t'.Reflects (ds ++ [b]) (after.map (· + 1)) kept' counted' := by
  have hcounted := h.counted_le
  have hkept := h.kept_le
  have hnatOf := natOf_snoc ds b
  have hmore : (ds ++ [b]).length = ds.length + 1 := by simp
  generalize b.toNat - 48 = d at hnatOf ⊢
  unfold Tally.push
  simp only [h.counted_eq, ofInt_eq_zero (by omega : counted ≤ 127)]
  by_cases hlead : d = 0 ∧ counted = 0
  · -- a zero in front
    obtain ⟨rfl, rfl⟩ := hlead
    have hnothing := h.nothing rfl
    refine .inr ⟨_, 0, 0, if_pos ⟨rfl, rfl⟩, ?_⟩
    constructor
    case kept_eq => rw [h.kept_eq, Nat.le_zero.mp hkept]
    case counted_eq => rfl
    case point_eq =>
      rw [h.point_eq, Option.map_map, Option.map_map]
      refine congrArg (Option.map · after) (funext fun k => ?_)
      show Int8.ofInt _ - Int8.ofInt 1 = Int8.ofInt _
      rw [← Int8.ofInt_sub]
      congr 1
      push_cast
      ring
    case natOf_eq => simp [hnatOf, h.natOf_eq, hnothing]
    all_goals simp [hnothing]
  rw [if_neg hlead]
  -- the point keeps its place among the digits that matter
  have hpoint : t.point = (after.map (· + 1)).map fun k : Nat =>
      Int8.ofInt ((counted + 1 : Nat) - k) := by
    rw [h.point_eq, Option.map_map]
    congr 1
    funext k
    rw [Function.comp_apply]
    congr 1
    push_cast
    ring
  have hcount : Int8.ofInt counted + 1 = Int8.ofInt (counted + 1 : Nat) := by
    show Int8.ofInt _ + Int8.ofInt 1 = _
    rw [← Int8.ofInt_add]
    rfl
  by_cases hroom : t.mantissa < largest
  · -- a digit that is kept
    have hall : kept = counted := by
      by_contra hne
      exact absurd (h.full (by omega)) (Nat.not_le.mpr hroom)
    refine .inr ⟨_, kept + 1, counted + 1, if_pos hroom, ?_⟩
    constructor
    case kept_eq => rw [h.kept_eq, hall, hcount]
    case counted_eq => exact hcount
    case point_eq => exact hpoint
    case natOf_eq => rw [hnatOf, h.natOf_eq, hall, Nat.sub_self, Nat.sub_self, pow_zero, mul_one,
      mul_one]
    all_goals omega
  rw [if_neg hroom]
  by_cases hd : d = 0
  · -- a zero that is only counted
    refine .inr ⟨_, kept, counted + 1, if_pos hd, ?_⟩
    constructor
    case kept_eq => exact h.kept_eq
    case counted_eq => exact hcount
    case point_eq => exact hpoint
    case natOf_eq => rw [hnatOf, h.natOf_eq, hd, Nat.sub_add_comm hkept, pow_succ]; ring
    case full => exact fun _ => Nat.not_lt.mp hroom
    all_goals omega
  · exact .inl (if_neg hd)

-- by computation: the equations of `scan` take the limit of the mantissa apart
theorem scan_cons (t : Tally) (b : UInt8) (rest : Text) : t.scan (b :: rest) =
    if isDigit b then
      match t.push (b.toNat - 48) with
      | some t => t.scan rest
      | none => .error .unsuited
    else if b = 0x2E then
      if t.point.isSome then .error .malformed
      else scan { t with point := some t.counted } rest
    else if isExponentMark b then .ok (t, b :: rest)
    else .error .malformed := by rfl

/-- A run of digits. -/
theorem Reflects.scan (h : t.Reflects ds after kept counted) (rest : Text) {more : Text}
    (hlength : (ds ++ more).length ≤ 127) (hmore : ∀ b ∈ more, isDigit b = true) :
    t.scan (more ++ rest) = .error .unsuited ∨ ∃ (t' : Tally) (kept' counted' : Nat),
      t.scan (more ++ rest) = t'.scan rest ∧
      t'.Reflects (ds ++ more) (after.map (· + more.length)) kept' counted' := by
  induction more generalizing t ds after kept counted with
  | nil =>
    rw [List.nil_append, List.append_nil]
    exact .inr ⟨t, kept, counted, rfl, by simpa using h⟩
  | cons b more ih =>
    rw [List.length_append, List.length_cons] at hlength
    have hb := hmore b List.mem_cons_self
    rw [List.cons_append, scan_cons, if_pos hb]
    rcases h.push (by omega) b with hnone | ⟨t', kept', counted', hsome, h'⟩
    · rw [hnone]
      exact .inl rfl
    · rw [hsome]
      have hrest := ih h' (by simp; omega) fun c hc => hmore c (List.mem_cons_of_mem b hc)
      have hafter : (after.map (· + 1)).map (· + more.length) =
          after.map (· + (b :: more).length) := by
        rw [Option.map_map]
        congr 1
        funext k
        simp only [Function.comp_apply, List.length_cons]
        omega
      rw [hafter, List.append_assoc, List.singleton_append] at hrest
      exact hrest

/-- The point. -/
theorem Reflects.scan_point (h : t.Reflects ds none kept counted) (rest : Text) :
    ∃ t' : Tally, t.scan (0x2E :: rest) = t'.scan rest ∧ t'.Reflects ds (some 0) kept counted := by
  have hnone : t.point = none := h.point_eq
  refine ⟨{ t with point := some t.counted }, ?_, ?_⟩
  · rw [scan_cons, if_neg (by decide), if_pos rfl, hnone, Option.isSome_none,
      if_neg Bool.false_ne_true]
  · exact { h with point_eq := by simp [h.counted_eq] }

/-- **What a tally comes to**: the number that its digits stand for, or it is left to the full
    way. -/
theorem Reflects.finish (h : t.Reflects ds after kept counted) {e : Int}
    (hlow : after.getD 0 ≤ 128 + e) (hhigh : ds.length + e ≤ 127) :
    t.finish (Int8.ofInt e) = .error .unsuited ∨
      ∃ d, t.finish (Int8.ofInt e) = .ok d ∧
        d.value = Decimal.value ⟨natOf ds, e - after.getD 0⟩ := by
  have hcounted := h.counted_le
  have hkept := h.kept_le
  have hpower : (t.point.getD t.counted + Int8.ofInt e - t.kept).toInt =
      counted - kept + (e - after.getD 0) := by
    have hpoint : t.point.getD t.counted = Int8.ofInt (counted - after.getD 0) := by
      rw [h.point_eq, h.counted_eq]
      cases after <;> simp
    rw [hpoint, h.kept_eq, ← Int8.ofInt_add, ← Int8.ofInt_sub, Int8.toInt_ofInt_of_le]
    · ring
    · push_cast
      omega
    · push_cast
      omega
  have hvalue : Decimal.value ⟨natOf ds, e - after.getD 0⟩ =
      Decimal.value ⟨t.mantissa, counted - kept + (e - after.getD 0)⟩ := by
    have hsplit : (counted : Int) - kept = (counted - kept : Nat) := by omega
    simp only [Decimal.value]
    rw [h.natOf_eq, hsplit, zpow_add₀ (by norm_num), zpow_natCast]
    push_cast
    ring
  unfold Tally.finish
  by_cases hzero : t.mantissa = 0
  · refine .inr ⟨⟨0, 0⟩, if_pos hzero, ?_⟩
    rw [hvalue, hzero]
    simp [Decimal.value]
  · rw [if_neg hzero]
    dsimp only
    rw [hpower]
    split
    · exact .inl rfl
    · exact .inr ⟨_, rfl, hvalue.symm⟩

end Tally

/-! ## 5. The quick way -/

namespace Numeral

variable {n : Numeral}

/-- A short exponent, or one that is left to the full way. -/
theorem quickExponent_text (h : n.Proper) :
    quickExponent (exponentText n.exponent) = .error .unsuited ∨
      quickExponent (exponentText n.exponent) = .ok (Int8.ofInt (power n.exponent)) ∧
        (power n.exponent).natAbs ≤ if n.exponent.isSome then 99 else 0 := by
  cases hexp : n.exponent with
  | none => exact .inr ⟨rfl, le_refl _⟩
  | some e =>
    obtain ⟨negative, ds⟩ := e
    obtain ⟨-, -, hdigits⟩ := h.exponent negative ds hexp
    have hall : (!ds.all isDigit) = false := by simpa using hdigits
    by_cases hlong : 2 < ds.length
    · left
      simp [exponentText, quickExponent, splitSign_exponent, hlong]
    · have hlt : natOf ds < 100 := by
        calc natOf ds < 10 ^ ds.length := natOf_lt hdigits
          _ ≤ 10 ^ 2 := Nat.pow_le_pow_right (by decide) (by omega)
      right
      constructor
      · simp only [exponentText, quickExponent, splitSign_exponent, hlong, hall, power]
        cases negative <;> simp [Int8.ofInt_neg, Int8.ofInt_eq_ofNat]
      · simp only [power, Option.isSome_some, if_true]
        split <;> omega

theorem scan_exponentText (t : Tally) (e : Option (Bool × Text)) :
    t.scan (exponentText e) = .ok (t, exponentText e) := by
  cases e with
  | none => rfl
  | some e =>
    rw [exponentText, Tally.scan_cons, if_neg (by decide), if_neg (by decide), if_pos (by decide)]

/-- A numeral is taken digit by digit up to its exponent. -/
theorem scan_text (h : n.Proper) (hlength : n.digits.length ≤ 127) :
    Tally.start.scan n.text = .error .unsuited ∨ ∃ (t : Tally) (kept counted : Nat),
      Tally.start.scan n.text = .ok (t, exponentText n.exponent) ∧
      t.Reflects n.digits (n.fraction.map List.length) kept counted := by
  have hstart := Tally.reflects_start
  unfold text
  unfold digits at hlength ⊢
  cases hfraction : n.fraction with
  | none =>
    rw [hfraction, Option.getD_none, List.append_nil] at hlength
    rcases hstart.scan (exponentText n.exponent) hlength h.whole with
      hnone | ⟨t, kept, counted, hscan, ht⟩
    · exact .inl hnone
    · exact .inr ⟨t, kept, counted, hscan.trans (scan_exponentText t n.exponent), by simpa using ht⟩
  | some ds =>
    rw [hfraction, Option.getD_some] at hlength
    have hwhole : ([] ++ n.whole : Text).length ≤ 127 := by
      rw [List.length_append] at hlength
      rw [List.nil_append]
      omega
    rcases hstart.scan (0x2E :: (ds ++ exponentText n.exponent)) hwhole h.whole with
      hnone | ⟨t, kept, counted, hscan, ht⟩
    · exact .inl hnone
    · obtain ⟨t', hpoint, ht'⟩ := ht.scan_point (ds ++ exponentText n.exponent)
      rcases ht'.scan (exponentText n.exponent) hlength (h.fraction ds hfraction) with
        hnone | ⟨t'', kept', counted', hscan', ht''⟩
      · exact .inl (hscan.trans (hpoint.trans hnone))
      · refine .inr ⟨t'', kept', counted', ?_, by simpa using ht''⟩
        exact hscan.trans (hpoint.trans (hscan'.trans (scan_exponentText t'' n.exponent)))

/-- **The quick way finds a decimal of the same value**, or leaves the number to the full way. -/
theorem quickDecimal_text (h : n.Proper) (hshort : n.Short) :
    quickDecimal n.text = .error .unsuited ∨
      ∃ d, quickDecimal n.text = .ok d ∧ d.value = n.decimal.value := by
  unfold Short at hshort
  unfold quickDecimal
  rcases scan_text h (by omega) with hnone | ⟨t, kept, counted, hscan, ht⟩
  · rw [hnone]
    exact .inl rfl
  rw [hscan]
  dsimp only
  rcases quickExponent_text h with hnone | ⟨hexp, hsize⟩
  · rw [hnone]
    exact .inl rfl
  rw [hexp]
  have hfraction : (n.fraction.map List.length).getD 0 = (n.fraction.getD []).length := by
    cases n.fraction <;> rfl
  have hle : (n.fraction.getD []).length ≤ n.digits.length := by
    simp [digits]
  have hfinish := ht.finish (e := power n.exponent) (by omega) (by omega)
  rw [hfraction] at hfinish
  exact hfinish

/-- **Both ways come to the float nearest to the decimal.** -/
theorem float?_text (h : n.Proper) (hshort : n.Short) (hfinite : n.decimal.toFloat.isInf = false) :
    float? n.text = some n.decimal.toFloat := by
  unfold float?
  rcases quickDecimal_text h hshort with hnone | ⟨d, hd, hvalue⟩
  · rw [hnone, decimal?_text h]
    simp [hfinite]
  · rw [hd]
    dsimp only
    rw [Decimal.toFloat_congr hvalue]

/-! ## 6. Numbers with a sign -/

end Numeral

/-- The text of a number with its sign in front, if it is negative. -/
def signText (negative : Bool) (t : Text) : Text := if negative then 0x2D :: t else t

theorem number?_signText (negative : Bool) {t : Text} (hne : t ≠ []) (hsign : t.head? ≠ some 0x2D) :
    number? (signText negative t) =
      if t.all isDigit && natOf t < 0x10000000000000000 then
        if negative then if natOf t ≤ 0x8000000000000000 then some (.int64 (-natOf t)) else none
        else if natOf t < 0x8000000000000000 then some (.int64 (natOf t)) else none
      else (float? t).map fun x => .float64 (signed negative x) := by
  cases negative with
  | true => rfl
  | false =>
    obtain ⟨b, more, rfl⟩ := List.exists_cons_of_ne_nil hne
    have hb : (b == 0x2D) = false := by simpa using hsign
    show number? (b :: more) = _
    unfold number?
    simp only [hb]
    rfl

end SmallLisp.Json
