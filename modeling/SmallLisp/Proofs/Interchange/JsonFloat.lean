import SmallLisp.Interchange.Json
import SmallLisp.Proofs.Interchange.JsonNumber
import SmallLisp.Proofs.Number.Order
import SmallLisp.Proofs.Text.Utf8
import SmallLisp.Proofs.Token.Numeral

/-!
# Numbers in JSON

A number is written with its shortest digits. Whichever layout they get, it is the text of a numeral
that stands for the shortest decimal (`exists_numeral`), and so it is read as the nearest float,
which is the number. This fails in one place. Whole numbers from `2 ^ 52` up to `10 ^ 21` are
written with digits only, and digits that fit into 64 bits are taken for an integer, of which one
bit is the sign. So a number is **wide** if its magnitude fits into 64 bits but not with a sign, and
the text of a wide number is refused.

* `Wide`, `wide_cases`: the shortest decimal of a number shows whether it is wide;
* `readsBack_writeNumber`: the text of a finite number is read back as that number, unless the
  number is wide.
-/

namespace SmallLisp

open Float.Model Float.Model.UnpackedFloat Binary64

namespace Json

/-! ## 1. Digits as bytes -/

theorem toNat_digit {c : Char} (h : c.isDigit = true) : 48 ≤ c.toNat ∧ c.toNat ≤ 57 := by
  simp only [Char.isDigit, Bool.and_eq_true, decide_eq_true_iff] at h
  exact h

theorem encodeChar_digit {c : Char} (h : c.isDigit = true) :
    Utf8.encodeChar c = [UInt8.ofNat c.toNat] := by
  have hc := toNat_digit h
  unfold Utf8.encodeChar
  exact if_pos (by omega)

/-- Digits are written with one byte each. -/
theorem encode_digits {cs : List Char} (h : ∀ c ∈ cs, c.isDigit = true) :
    (Utf8.encode cs).length = cs.length ∧ (∀ b ∈ Utf8.encode cs, isDigit b = true) ∧
      natOf (Utf8.encode cs) = natOfDigits cs := by
  induction cs using List.reverseRecOn with
  | nil => exact ⟨rfl, fun b hb => (by cases hb), rfl⟩
  | append_singleton cs c ih =>
    obtain ⟨hlength, hdigits, hvalue⟩ := ih fun c hc => h c (List.mem_append_left _ hc)
    have hc := h c (by simp)
    have hnat := toNat_digit hc
    have hbyte : (UInt8.ofNat c.toNat).toNat = c.toNat := Utf8.toNat_byte (by omega)
    have hsnoc : Utf8.encode (cs ++ [c]) = Utf8.encode cs ++ [UInt8.ofNat c.toNat] := by
      simp [Utf8.encode, encodeChar_digit hc]
    rw [hsnoc]
    refine ⟨by simp [hlength], fun b hb => ?_, ?_⟩
    · rcases List.mem_append.mp hb with hb | hb
      · exact hdigits b hb
      · rw [List.mem_singleton.mp hb, isDigit_iff, hbyte]
        exact hnat
    · rw [natOf_snoc, hbyte, hvalue, natOfDigits_append]
      simp [natOfDigits, hc]
      ring

/-! ## 2. Layouts are numerals -/

namespace Numeral

/-- The numeral has this text, and stands for this number. -/
structure Writes (n : Numeral) (cs : List Char) (r : ℚ) : Prop where
  text_eq : n.text = Utf8.encode cs
  proper : n.Proper
  short : n.Short
  value_eq : n.decimal.value = r

/-- A numeral given by characters. -/
def ofChars (whole : List Char) (fraction : Option (List Char))
    (exponent : Option (Bool × List Char)) : Numeral :=
  ⟨Utf8.encode whole, fraction.map Utf8.encode, exponent.map fun e => (e.1, Utf8.encode e.2)⟩

section

variable {whole : List Char} {fraction : Option (List Char)} {exponent : Option (Bool × List Char)}

theorem text_ofChars : (ofChars whole fraction exponent).text =
    Utf8.encode (whole ++ (fraction.elim [] ('.' :: ·) ++
      exponent.elim [] fun e => 'e' :: (if e.1 then '-' else '+') :: e.2)) := by
  have hsign (negative : Bool) :
      Utf8.encodeChar (if negative then '-' else '+') = [if negative then 0x2D else 0x2B] := by
    cases negative <;> rfl
  have hpoint : Utf8.encodeChar '.' = [0x2E] := rfl
  have hmark : Utf8.encodeChar 'e' = [0x65] := rfl
  unfold text ofChars
  cases fraction <;> cases exponent <;>
    simp [fractionText, exponentText, Utf8.encode_append, Utf8.encode_cons, hpoint, hmark, hsign]

theorem proper_ofChars (hne : whole ≠ []) (hwhole : ∀ c ∈ whole, c.isDigit = true)
    (hfraction : ∀ c ∈ fraction.getD [], c.isDigit = true)
    (hexponent : ∀ e, exponent = some e →
      e.2 ≠ [] ∧ e.2.length ≤ 4 ∧ ∀ c ∈ e.2, c.isDigit = true) :
    (ofChars whole fraction exponent).Proper := by
  have hne' {cs : List Char} (hcs : cs ≠ []) (h : ∀ c ∈ cs, c.isDigit = true) :
      Utf8.encode cs ≠ [] := by
    rw [← List.length_pos_iff, (encode_digits h).1, List.length_pos_iff]
    exact hcs
  constructor
  case whole_ne_nil => exact hne' hne hwhole
  case whole => exact (encode_digits hwhole).2.1
  case fraction =>
    cases fraction with
    | none => simp [ofChars]
    | some cs =>
      rintro ds ⟨rfl⟩
      exact (encode_digits hfraction).2.1
  case exponent =>
    cases exponent with
    | none => simp [ofChars]
    | some e =>
      obtain ⟨hcs, hlength, hdigits⟩ := hexponent e rfl
      rintro negative ds ⟨rfl⟩
      exact ⟨hne' hcs hdigits, by rw [(encode_digits hdigits).1]; exact hlength,
        (encode_digits hdigits).2.1⟩

theorem digits_ofChars :
    (ofChars whole fraction exponent).digits = Utf8.encode (whole ++ fraction.getD []) := by
  unfold digits ofChars
  rw [Utf8.encode_append]
  cases fraction <;> rfl

variable (fraction exponent) in
/-- **A numeral stands for the number of its digits.** -/
theorem writes_ofChars (hne : whole ≠ []) (hwhole : ∀ c ∈ whole, c.isDigit = true)
    (hfraction : ∀ c ∈ fraction.getD [], c.isDigit = true)
    (hexponent : ∀ e, exponent = some e →
      e.2 ≠ [] ∧ e.2.length ≤ 4 ∧ ∀ c ∈ e.2, c.isDigit = true)
    (hshort : (whole ++ fraction.getD []).length + (if exponent.isSome then 99 else 0) ≤ 127)
    {cs : List Char} (hcs : whole ++ (fraction.elim [] ('.' :: ·) ++
      exponent.elim [] fun e => 'e' :: (if e.1 then '-' else '+') :: e.2) = cs)
    {r : ℚ} (hr : Decimal.value ⟨natOfDigits (whole ++ fraction.getD []),
      exponent.elim 0 (fun e => if e.1 then -(natOfDigits e.2 : ℤ) else natOfDigits e.2)
        - (fraction.getD []).length⟩ = r) :
    (ofChars whole fraction exponent).Writes cs r := by
  have hall : ∀ c ∈ whole ++ fraction.getD [], c.isDigit = true := fun c hc => by
    rcases List.mem_append.mp hc with hc | hc
    · exact hwhole c hc
    · exact hfraction c hc
  constructor
  case text_eq => rw [text_ofChars, hcs]
  case proper => exact proper_ofChars hne hwhole hfraction hexponent
  case short =>
    unfold Short
    rw [digits_ofChars, (encode_digits hall).1]
    cases exponent <;> exact hshort
  case value_eq =>
    have hlength : (((ofChars whole fraction exponent).fraction).getD []).length
        = (fraction.getD []).length := by
      cases fraction with
      | none => rfl
      | some cs => exact (encode_digits hfraction).1
    have hpower : power (ofChars whole fraction exponent).exponent =
        exponent.elim 0 fun e => if e.1 then -(natOfDigits e.2 : ℤ) else natOfDigits e.2 := by
      cases exponent with
      | none => rfl
      | some e =>
        obtain ⟨-, -, hdigits⟩ := hexponent e rfl
        simp only [ofChars, power, Option.map_some, Option.elim_some, (encode_digits hdigits).2.2]
    unfold decimal
    rw [digits_ofChars, (encode_digits hall).2.2, hlength, hpower, hr]

end

end Numeral

section

variable {d : Digits}

theorem length_parts_le (d : Digits) :
    (d.wholePart ++ d.fractionPart).length ≤ 1 + d.point.natAbs + d.digits.length := by
  rw [List.length_append]
  unfold Digits.wholePart Digits.fractionPart
  by_cases hpoint : d.point ≤ 0
  · simp only [if_pos hpoint]
    split
    · simp only [List.length_singleton, List.length_nil]
      omega
    · simp only [List.length_singleton, List.length_append, List.length_replicate]
      omega
  · simp only [if_neg hpoint, List.length_append, List.length_take, List.length_replicate,
      List.length_drop]
    omega

theorem fractionPart_eq_nil (h : (d.digits.length : ℤ) ≤ d.point) (hpos : 0 < d.point) :
    d.fractionPart = [] := by
  unfold Digits.fractionPart
  rw [if_neg (by omega), List.drop_of_length_le (by omega)]

/-- The positional layout; without a fraction it is all digits. -/
theorem writes_positional (h : d.Proper) (hshort : d.point.natAbs + d.digits.length ≤ 126) :
    ∃ n : Numeral, n.Writes d.positional d.value ∧
      (d.fractionPart = [] → n.text.all isDigit = true) := by
  have hwhole := Digits.isDigit_wholePart h
  have hdigits := Digits.isDigit_fractionPart h
  have hparts := length_parts_le d
  have hvalue := Digits.value_positional d
  unfold Digits.positional
  cases hfraction : d.fractionPart with
  | nil =>
    rw [hfraction] at hparts hvalue
    refine ⟨.ofChars d.wholePart none none, ?_, fun _ => ?_⟩
    · refine Numeral.writes_ofChars none none d.wholePart_ne_nil hwhole (by simp) (by simp) ?_
        (by simp) ?_
      · show (d.wholePart ++ []).length + 0 ≤ 127
        omega
      · simpa using hvalue
    · simpa [Numeral.text_ofChars] using (encode_digits hwhole).2.1
  | cons c cs =>
    rw [hfraction] at hparts hvalue hdigits
    refine ⟨.ofChars d.wholePart (some (c :: cs)) none, ?_, fun h => absurd h (by simp)⟩
    refine Numeral.writes_ofChars (some (c :: cs)) none d.wholePart_ne_nil hwhole hdigits (by simp)
      ?_ (by simp) ?_
    · show (d.wholePart ++ c :: cs).length + 0 ≤ 127
      omega
    · simpa using hvalue

/-- The positional layout of a whole number, with a zero after the point. -/
theorem writes_positional_point (h : d.Proper) (hwhole : d.fractionPart = [])
    (hshort : d.point.natAbs + d.digits.length ≤ 125) :
    ∃ n : Numeral, n.Writes (d.positional ++ ['.', '0']) d.value := by
  have hdigits := Digits.isDigit_wholePart h
  have hparts := length_parts_le d
  have hvalue := Digits.value_positional d
  have hpositional : d.positional = d.wholePart := by rw [Digits.positional, hwhole]
  rw [hwhole, List.append_nil] at hparts hvalue
  refine ⟨.ofChars d.wholePart (some ['0']) none, ?_⟩
  refine Numeral.writes_ofChars (some ['0']) none d.wholePart_ne_nil hdigits (by simp) (by simp) ?_
    (by simp [hpositional]) ?_
  · show (d.wholePart ++ ['0']).length + 0 ≤ 127
    rw [List.length_append, List.length_singleton]
    omega
  · have hzero : natOfDigits ['0'] = 0 := rfl
    rw [← hvalue]
    simp [Decimal.value, natOfDigits_append, hzero]

/-- The digits of an exponent, at least two. -/
theorem padded_digits {n : ℕ} (h : n < 10000) {ds : List Char}
    (hds : List.replicate (2 - (Nat.toDigits 10 n).length) '0' ++ Nat.toDigits 10 n = ds) :
    ds ≠ [] ∧ ds.length ≤ 4 ∧ (∀ c ∈ ds, c.isDigit = true) ∧ natOfDigits ds = n := by
  have hpos : 0 < (Nat.toDigits 10 n).length := Nat.length_toDigits_pos
  have hlength : (Nat.toDigits 10 n).length ≤ 4 :=
    (Nat.length_toDigits_le_iff (by decide) (by decide)).mpr h
  subst hds
  refine ⟨?_, ?_, fun c hc => ?_, ?_⟩
  · rw [← List.length_pos_iff, List.length_append]
    omega
  · rw [List.length_append, List.length_replicate]
    omega
  · rcases List.mem_append.mp hc with hc | hc
    · rw [(List.mem_replicate.mp hc).2]
      rfl
    · exact Nat.isDigit_of_mem_toDigits (by decide) (by decide) hc
  · rw [natOfDigits_append, natOfDigits_zeros, zero_mul, zero_add, natOfDigits_toDigits]

/-- The layout with an exponent. -/
theorem writes_scientific (h : d.Proper) (hne : d.digits ≠ []) (hlength : d.digits.length ≤ 28)
    (hpoint : (d.point - 1).natAbs < 10000) : ∃ n : Numeral, n.Writes d.scientific d.value := by
  obtain ⟨c, more, hdigits⟩ := List.exists_cons_of_ne_nil hne
  obtain ⟨e, he⟩ : ∃ e, d.point - 1 = e := ⟨_, rfl⟩
  obtain ⟨places, hplaces⟩ : ∃ places, List.replicate (2 - (Nat.toDigits 10 e.natAbs).length) '0'
    ++ Nat.toDigits 10 e.natAbs = places := ⟨_, rfl⟩
  have hproper : ∀ c ∈ d.digits, c.isDigit = true := h
  rw [hdigits] at hproper hlength
  rw [he] at hpoint
  obtain ⟨hne', hlength', hplaces', hvalue⟩ := padded_digits hpoint hplaces
  have hpower : (if e < 0 then -(e.natAbs : ℤ) else e.natAbs) = e := by
    split <;> omega
  have hlead : d.scientific = [c] ++ ((if more = [] then none else some more).elim [] ('.' :: ·) ++
      'e' :: (if e < 0 then '-' else '+') :: places) := by
    unfold Digits.scientific
    rw [hdigits]
    cases more <;> simp [he, hplaces]
  have hmore : (if more = [] then none else some more).getD [] = more := by
    by_cases hnil : more = [] <;> simp [hnil]
  refine ⟨.ofChars [c] (if more = [] then none else some more) (some (decide (e < 0), places)), ?_⟩
  refine Numeral.writes_ofChars _ _ (by simp) ?_ ?_ ?_ ?_ ?_ ?_
  · simpa using hproper c List.mem_cons_self
  · rw [hmore]
    exact fun b hb => hproper b (List.mem_cons_of_mem c hb)
  · rintro _ ⟨rfl⟩
    exact ⟨hne', hlength', hplaces'⟩
  · rw [hmore]
    show ([c] ++ more).length + 99 ≤ 127
    exact Nat.add_le_add_right hlength 99
  · simp [hlead]
  · rw [hmore]
    simp only [Option.elim_some, hvalue, decide_eq_true_eq, hpower]
    have hplace : e - more.length = d.point - (c :: more).length := by
      rw [List.length_cons]
      push_cast
      omega
    unfold Decimal.value Digits.value
    rw [hdigits, hplace]
    rfl

end

/-! ## 3. The digits of a float -/

section

variable {x : Float} {s : Sign} {m : ℕ} {e : ℤ} {hm : 0 < m}

theorem form_shortest (hx : form x = .finite s m e hm) :
    form (shortest x.abs).toFloat = .finite .positive m e hm := by
  have habs := form_abs_finite hx
  rw [shortest_toFloat habs, habs]

/-- What is known of the digits of a float other than zero. -/
theorem digitsOf_bounds (hx : form x = .finite s m e hm) :
    (digitsOf x).value = (shortest x.abs).value ∧
      (digitsOf x).point = (shortest x.abs).magnitude ∧
      (digitsOf x).digits ≠ [] ∧ (digitsOf x).digits.length ≤ 18 ∧
      (digitsOf x).digits.length ≤ digitCount (shortest x.abs).coefficient := by
  obtain ⟨h0, -⟩ := Decimal.magnitude_bounds (form_shortest hx)
  have hvalue := Decimal.value_toDigits (shortest x.abs)
  have hlength : (shortest x.abs).toDigits.digits.length
      ≤ digitCount (shortest x.abs).coefficient := by
    simp only [Decimal.toDigits, digitCount, List.length_reverse]
    calc _ ≤ (Nat.toDigits 10 (shortest x.abs).coefficient).reverse.length :=
          (List.dropWhile_sublist _).length_le
      _ = _ := List.length_reverse
  rw [digitsOf_finite hx]
  refine ⟨hvalue, rfl, fun hnil => ?_, ?_, hlength⟩
  · have hpos := Decimal.value_pos h0
    rw [← hvalue, Digits.value, hnil] at hpos
    simp [natOfDigits] at hpos
  · have hcount : digitCount (shortest x.abs).coefficient ≤ 18 :=
      (Nat.length_toDigits_le_iff (by decide) (by decide)).mpr
        (lt_of_le_of_lt (shortest_coefficient_le (form_abs_finite hx)) (by norm_num))
    omega

theorem fractionPart_of_exponent (hx : form x = .finite s m e hm)
    (h : 0 ≤ (shortest x.abs).exponent) : (digitsOf x).fractionPart = [] := by
  obtain ⟨-, hpoint, -, -, hlength⟩ := digitsOf_bounds hx
  have hpos := digitCount_pos (shortest x.abs).coefficient
  have hmagnitude : (shortest x.abs).magnitude =
    digitCount (shortest x.abs).coefficient + (shortest x.abs).exponent := rfl
  exact fractionPart_eq_nil (by omega) (by omega)

/-- A whole number below `2 ^ 52` has no digits after the point. -/
theorem fractionPart_of_whole (hx : form x = .finite s m e hm)
    (hwhole : (fraction x).1 % (fraction x).2 = 0)
    (hlt : (fraction x).1 < hiddenBit * (fraction x).2) : (digitsOf x).fractionPart = [] := by
  obtain ⟨hden, hvalue⟩ := fraction_spec hx
  obtain ⟨n, hn⟩ := Nat.dvd_of_mod_eq_zero hwhole
  rw [hn, mul_comm hiddenBit] at hlt
  have hsmall : n < hiddenBit := Nat.lt_of_mul_lt_mul_left hlt
  have hn' : (m : ℚ) * 2 ^ e = n := by
    have hden' : ((fraction x).2 : ℚ) ≠ 0 := by exact_mod_cast hden.ne'
    rw [← hvalue, hn, Nat.cast_mul, mul_div_cancel_left₀ _ hden']
  refine fractionPart_of_exponent hx (shortest_exponent_nonneg (form_abs_finite hx) hn' ?_)
  exact lt_trans hsmall (by norm_num [hiddenBit])

/-! ## 4. Wide numbers -/

/-- The magnitude fits into 64 bits, but not with a sign. -/
def Wide (x : Float) : Prop := 9223372036854775808 ≤ x.abs ∧ x.abs < 18446744073709551616

instance : DecidablePred Wide := fun x =>
  inferInstanceAs (Decidable (9223372036854775808 ≤ x.abs ∧ x.abs < 18446744073709551616))

theorem form_two_pow_63 : form 9223372036854775808 =
    .finite .positive 0x10000000000000 11 (by decide) := rfl

theorem form_two_pow_64 : form 18446744073709551616 =
    .finite .positive 0x10000000000000 12 (by decide) := rfl

theorem value_two_pow_63 : ((0x10000000000000 : ℕ) : ℚ) * 2 ^ (11 : ℤ) = 2 ^ 63 := by norm_num

theorem value_two_pow_64 : ((0x10000000000000 : ℕ) : ℚ) * 2 ^ (12 : ℤ) = 2 ^ 64 := by norm_num

theorem wide_iff (hx : form x = .finite s m e hm) :
    Wide x ↔ 2 ^ 63 ≤ (m : ℚ) * 2 ^ e ∧ (m : ℚ) * 2 ^ e < 2 ^ 64 := by
  have habs := form_abs_finite hx
  rw [Wide, le_iff_value form_two_pow_63 habs, lt_iff_value habs form_two_pow_64,
    value_two_pow_63, value_two_pow_64]

theorem shortest_two_pow_63 : shortest 9223372036854775808 = ⟨9223372036854776, 3⟩ := by
  decide +kernel

theorem shortest_two_pow_64 : shortest 18446744073709551616 = ⟨18446744073709552, 3⟩ := by
  decide +kernel

/-- The shortest decimal of a float lies on the same side of another float as the float. -/
theorem shortest_side (hx : form x = .finite s m e hm) {y : Float} {m' : ℕ} {e' : ℤ} {hm' : 0 < m'}
    (hy : form y = .finite .positive m' e' hm') {r : ℚ} (hr : (m' : ℚ) * 2 ^ e' = r) :
    ((m : ℚ) * 2 ^ e < r → (shortest x.abs).value < r) ∧
    ((m : ℚ) * 2 ^ e = r → x.abs = y) ∧ (r < (m : ℚ) * 2 ^ e → r < (shortest x.abs).value) := by
  have hform := form_shortest hx
  obtain ⟨h0, -⟩ := Decimal.magnitude_bounds hform
  have hcanon := canonical_form y
  rw [hy] at hcanon
  subst hr
  exact ⟨Decimal.lt_of_toFloat_lt h0 hform hcanon, eq_of_value (form_abs_finite hx) hy,
    Decimal.lt_of_lt_toFloat h0 hform hcanon⟩

/-- Where the shortest decimal of a float lies tells whether the float is wide. -/
theorem wide_cases (hx : form x = .finite s m e hm) :
    ¬ Wide x ∧ (shortest x.abs).value < 2 ^ 63 ∨
    Wide x ∧ 2 ^ 63 < (shortest x.abs).value ∧ (shortest x.abs).value < 2 ^ 64 ∨
    ¬ Wide x ∧ 2 ^ 64 < (shortest x.abs).value := by
  obtain ⟨hbelow, hat, habove⟩ := shortest_side hx form_two_pow_63 value_two_pow_63
  obtain ⟨hbelow', hat', habove'⟩ := shortest_side hx form_two_pow_64 value_two_pow_64
  rw [wide_iff hx]
  rcases lt_trichotomy ((m : ℚ) * 2 ^ e) (2 ^ 63) with h | h | h
  · exact .inl ⟨fun hw => absurd hw.1 (not_le.mpr h), hbelow h⟩
  · -- the shortest digits of `2 ^ 63` are those of a larger number
    refine .inr (.inl ⟨⟨h.ge, by rw [h]; norm_num⟩, ?_⟩)
    rw [hat h, shortest_two_pow_63]
    norm_num [Decimal.value]
  rcases lt_trichotomy ((m : ℚ) * 2 ^ e) (2 ^ 64) with h' | h' | h'
  · exact .inr (.inl ⟨⟨h.le, h'⟩, habove h, hbelow' h'⟩)
  · refine .inr (.inr ⟨fun hw => absurd hw.2 (by rw [h']; exact lt_irrefl _), ?_⟩)
    rw [hat' h', shortest_two_pow_64]
    norm_num [Decimal.value]
  · exact .inr (.inr ⟨fun hw => absurd hw.2 (not_lt.mpr h'.le), habove' h'⟩)

theorem value_of_wide (hx : form x = .finite s m e hm) (h : Wide x) :
    2 ^ 63 < (shortest x.abs).value ∧ (shortest x.abs).value < 2 ^ 64 := by
  rcases wide_cases hx with ⟨hnot, -⟩ | ⟨-, hvalue⟩ | ⟨hnot, -⟩
  · exact absurd h hnot
  · exact hvalue
  · exact absurd h hnot

end

/-! ## 5. What is written -/

/-- The text of a magnitude. -/
def magnitudeText (x : Float) : List Char :=
  if (fraction x).1 = 0 then ['0', '.', '0']
  else if x.abs < 1e-6 || 1e21 ≤ x.abs then (digitsOf x).scientific
  else if (fraction x).1 % (fraction x).2 = 0 && (fraction x).1 < hiddenBit * (fraction x).2 then
    (digitsOf x).positional ++ ['.', '0']
  else (digitsOf x).positional

theorem writeNumber_eq {x : Float} (h : x.isFinite = true) :
    writeNumber x = signText (isNegative x) (Utf8.encode (magnitudeText x)) := by
  unfold writeNumber
  rw [if_pos h]
  show Utf8.encode (layOut _ x).toList = _
  rw [toList_layOut _ h]
  cases isNegative x <;> rfl

section

variable {x : Float} {s : Sign} {m : ℕ} {e : ℤ} {hm : 0 < m}

theorem form_large : form 1e21 = .finite .positive 7629394531250000 17 (by decide) := rfl

theorem form_small : form 1e-6 = .finite .positive 4722366482869645 (-72) (by decide) := rfl

theorem form_two_pow_neg_20 : form 9.5367431640625e-7 =
    .finite .positive 0x10000000000000 (-72) (by decide) := rfl

/-- Numbers that take no exponent have few places before and after the point. -/
theorem point_bounds (hx : form x = .finite s m e hm)
    (h : (decide (x.abs < 1e-6) || decide (1e21 ≤ x.abs)) = false) :
    -6 ≤ (digitsOf x).point ∧ (digitsOf x).point ≤ 21 := by
  have habs := form_abs_finite hx
  obtain ⟨-, hpoint, -⟩ := digitsOf_bounds hx
  obtain ⟨h0, -⟩ := Decimal.magnitude_bounds (form_shortest hx)
  rw [Bool.or_eq_false_iff, decide_eq_false_iff_not, decide_eq_false_iff_not,
    lt_iff_value habs form_small, le_iff_value form_large habs, not_lt, not_le] at h
  obtain ⟨hlow, hhigh⟩ := h
  have h21 : ((7629394531250000 : ℕ) : ℚ) * 2 ^ (17 : ℤ) = 10 ^ (21 : ℤ) := by norm_num
  rw [h21] at hhigh
  have hvalue := (shortest_side hx form_large h21).1 hhigh
  have hvalue' := (shortest_side hx form_two_pow_neg_20 rfl).2.2 (lt_of_lt_of_le (by norm_num) hlow)
  have hplace := Decimal.magnitude_le h0 hvalue
  have hplace' : -7 < (shortest x.abs).magnitude :=
    Decimal.lt_magnitude ((lt_of_le_of_lt (by norm_num) hvalue').le)
  omega

theorem not_wide_of_exponent (hx : form x = .finite s m e hm)
    (h : (decide (x.abs < 1e-6) || decide (1e21 ≤ x.abs)) = true) : ¬ Wide x := by
  have habs := form_abs_finite hx
  rw [Bool.or_eq_true, decide_eq_true_iff, decide_eq_true_iff, lt_iff_value habs form_small,
    le_iff_value form_large habs] at h
  rw [wide_iff hx]
  rintro ⟨hlow, hhigh⟩
  rcases h with h | h
  · exact absurd (lt_of_le_of_lt hlow h) (by norm_num)
  · exact absurd (lt_of_le_of_lt h hhigh) (by norm_num)

theorem not_wide_of_small (hx : form x = .finite s m e hm)
    (h : (fraction x).1 < hiddenBit * (fraction x).2) : ¬ Wide x := by
  obtain ⟨hden, hvalue⟩ := fraction_spec hx
  have hden' : (0 : ℚ) < (fraction x).2 := by exact_mod_cast hden
  have hlt : (m : ℚ) * 2 ^ e < hiddenBit := by
    rw [← hvalue, div_lt_iff₀ hden']
    exact_mod_cast h
  rw [wide_iff hx]
  rintro ⟨hlow, -⟩
  exact absurd (lt_of_le_of_lt hlow hlt) (by norm_num [hiddenBit])

theorem fractionPart_of_wide (hx : form x = .finite s m e hm) (h : Wide x) :
    (digitsOf x).fractionPart = [] := by
  obtain ⟨-, hpoint, -, hlength, -⟩ := digitsOf_bounds hx
  have hplace : 18 < (shortest x.abs).magnitude :=
    Decimal.lt_magnitude ((lt_of_le_of_lt (by norm_num) (value_of_wide hx h).1).le)
  exact fractionPart_eq_nil (by omega) (by omega)

/-- **The magnitude of a number other than zero is written as a numeral** that stands for the
    shortest decimal; if the number is wide, with digits only. -/
theorem exists_numeral (hx : form x = .finite s m e hm) :
    ∃ n : Numeral, n.Writes (magnitudeText x) (shortest x.abs).value ∧
      (Wide x → n.text.all isDigit = true) := by
  have habs := form_abs_finite hx
  have hproper := proper_digitsOf x
  obtain ⟨hdigits, hpoint, hne, hlength, -⟩ := digitsOf_bounds hx
  have hnonzero : (fraction x).1 ≠ 0 := by
    obtain ⟨-, hvalue⟩ := fraction_spec hx
    have hpos : (0 : ℚ) < m * 2 ^ e := mul_pos (by exact_mod_cast hm) (two_zpow_pos e)
    intro h0
    rw [← hvalue, h0, Nat.cast_zero, zero_div] at hpos
    exact lt_irrefl _ hpos
  unfold magnitudeText
  rw [if_neg hnonzero, ← hdigits]
  by_cases hexponent : (decide (x.abs < 1e-6) || decide (1e21 ≤ x.abs)) = true
  · obtain ⟨-, hlow, hhigh⟩ := Decimal.magnitude_bounds (form_shortest hx)
    obtain ⟨n, hn⟩ := writes_scientific hproper hne (by omega) (by omega)
    rw [if_pos hexponent]
    exact ⟨n, hn, fun hwide => absurd hwide (not_wide_of_exponent hx hexponent)⟩
  rw [if_neg hexponent]
  obtain ⟨hlow, hhigh⟩ := point_bounds hx (by simpa using hexponent)
  by_cases hwhole : (decide ((fraction x).1 % (fraction x).2 = 0) &&
      decide ((fraction x).1 < hiddenBit * (fraction x).2)) = true
  · have hparts := hwhole
    rw [Bool.and_eq_true, decide_eq_true_iff, decide_eq_true_iff] at hparts
    obtain ⟨n, hn⟩ := writes_positional_point hproper (fractionPart_of_whole hx hparts.1 hparts.2)
      (by omega)
    rw [if_pos hwhole]
    exact ⟨n, hn, fun hwide => absurd hwide (not_wide_of_small hx hparts.2)⟩
  · obtain ⟨n, hn, hall⟩ := writes_positional hproper (by omega)
    rw [if_neg hwhole]
    exact ⟨n, hn, fun hwide => hall (fractionPart_of_wide hx hwide)⟩

/-- Zero keeps a zero after the point. -/
theorem writes_zero (hx : form x = .zero s) :
    (Numeral.ofChars ['0'] (some ['0']) none).Writes (magnitudeText x) 0 := by
  have hfraction : (fraction x).1 = 0 := by
    rw [← ofForm_form x, hx]
    cases s <;> rfl
  refine Numeral.writes_ofChars _ _ (by simp) (by simp) (by simp) (by simp) (by decide) ?_ ?_
  · rw [magnitudeText, if_pos hfraction]
    rfl
  · have hzero : natOfDigits ['0', '0'] = 0 := rfl
    simp [Decimal.value, hzero]

theorem Numeral.text_ne_nil {n : Numeral} (h : n.Proper) : n.text ≠ [] := by
  simp [text, h.whole_ne_nil]

theorem Numeral.isNumeric_text {n : Numeral} (h : n.Proper) :
    ∀ b ∈ n.text, isNumeric b = true := by
  have hdigit {b : UInt8} (hb : isDigit b = true) : isNumeric b = true := by
    simp [isNumeric, hb]
  intro b hb
  unfold text at hb
  rcases List.mem_append.mp hb with hb | hb
  · exact hdigit (h.whole b hb)
  rcases List.mem_append.mp hb with hb | hb
  · cases hfraction : n.fraction with
    | none =>
      rw [hfraction] at hb
      cases hb
    | some ds =>
      rw [hfraction] at hb
      rcases List.mem_cons.mp hb with rfl | hb
      · rfl
      · exact hdigit (h.fraction ds hfraction b hb)
  · cases hexponent : n.exponent with
    | none =>
      rw [hexponent] at hb
      cases hb
    | some e =>
      obtain ⟨negative, ds⟩ := e
      rw [hexponent] at hb
      rcases List.mem_cons.mp hb with rfl | hb
      · rfl
      rcases List.mem_cons.mp hb with rfl | hb
      · cases negative <;> rfl
      · exact hdigit ((h.exponent negative ds hexponent).2.2 b hb)

/-- The text of a finite number is not empty, and numeric throughout. -/
theorem isNumeric_writeNumber (h : x.isFinite = true) :
    writeNumber x ≠ [] ∧ ∀ b ∈ writeNumber x, isNumeric b = true := by
  obtain ⟨n, hproper, htext⟩ : ∃ n : Numeral, n.Proper ∧
      n.text = Utf8.encode (magnitudeText x) := by
    rcases form_of_isFinite h with ⟨s, hx⟩ | ⟨s, m, e, hm, hx⟩
    · exact ⟨_, (writes_zero hx).proper, (writes_zero hx).text_eq⟩
    · obtain ⟨n, hn, -⟩ := exists_numeral hx
      exact ⟨n, hn.proper, hn.text_eq⟩
  have hne := Numeral.text_ne_nil hproper
  have hnumeric := Numeral.isNumeric_text hproper
  rw [writeNumber_eq h, ← htext]
  unfold signText
  cases isNegative x with
  | false => exact ⟨hne, hnumeric⟩
  | true =>
    refine ⟨List.cons_ne_nil _ _, fun b hb => ?_⟩
    rcases List.mem_cons.mp hb with rfl | hb
    · rfl
    · exact hnumeric b hb

end

/-! ## 6. What is read -/

namespace Numeral

variable {n : Numeral}

/-- A numeral starts with a digit. -/
theorem head?_text (h : n.Proper) : n.text.head? ≠ some 0x2D := by
  obtain ⟨b, more, hwhole⟩ := List.exists_cons_of_ne_nil h.whole_ne_nil
  have hb : isDigit b = true := h.whole b (by rw [hwhole]; exact List.mem_cons_self)
  rw [text, hwhole]
  rintro ⟨rfl⟩
  cases hb

/-- A numeral that is all digits is a whole number. -/
theorem decimal_of_all (h : n.text.all isDigit = true) : n.decimal = ⟨natOf n.text, 0⟩ := by
  rw [List.all_eq_true] at h
  unfold text at h ⊢
  unfold decimal digits
  cases hfraction : n.fraction with
  | some ds =>
    have hpoint := h 0x2E (by simp [hfraction, fractionText])
    cases hpoint
  | none =>
    cases hexponent : n.exponent with
    | some e =>
      have hmark := h 0x65 (by simp [hexponent, exponentText])
      cases hmark
    | none => simp [fractionText, exponentText, power]

theorem Writes.natOf_eq {cs : List Char} {r : ℚ} (h : n.Writes cs r)
    (hall : n.text.all isDigit = true) : (natOf n.text : ℚ) = r := by
  rw [← h.value_eq, decimal_of_all hall]
  simp [Decimal.value]

/-- A numeral with a point, an exponent or too many digits is read as a float. -/
theorem number?_float {x : Float} (hproper : n.Proper) (hshort : n.Short)
    (hfinite : x.isFinite = true) (hfloat : n.decimal.toFloat = x.abs)
    (h : ¬ (n.text.all isDigit = true ∧ natOf n.text < 0x10000000000000000)) :
    number? (signText (isNegative x) n.text) = some (.float64 x) := by
  have hinf : n.decimal.toFloat.isInf = false := by
    rw [hfloat]
    show (form x.abs).isInf = false
    rw [form_abs]
    rcases form_of_isFinite hfinite with ⟨s, hx⟩ | ⟨s, m, e, hm, hx⟩ <;> rw [hx] <;> rfl
  rw [number?_signText _ (text_ne_nil hproper) (head?_text hproper), if_neg (by simpa using h),
    float?_text hproper hshort hinf, Option.map_some, hfloat, signed_abs]

end Numeral

/-- Whole numbers are turned into floats as decimals are. -/
theorem ofInt_signed (negative : Bool) {n : ℕ} (h0 : n ≠ 0) (h : n < 0x10000000000000000) :
    Float.ofInt (if negative then -n else n) = signed negative (Decimal.toFloat ⟨n, 0⟩) := by
  have hcount : digitCount n ≤ 20 :=
    (Nat.length_toDigits_le_iff (by decide) (by decide)).mpr (lt_trans h (by norm_num))
  have hfloat : Decimal.toFloat ⟨n, 0⟩ = Float.ofNat n := by
    unfold Decimal.toFloat
    dsimp only
    rw [if_neg (by omega), if_neg (by omega), if_neg (by omega)]
    rfl
  rw [hfloat]
  cases negative with
  | false => rfl
  | true =>
    obtain ⟨k, rfl⟩ := Nat.exists_eq_succ_of_ne_zero h0
    rfl

/-- What is said of the text of a number: it is read back, unless the number is wide. -/
structure ReadsBack (x : Float) (t : Text) : Prop where
  wide : Wide x → number? t = none
  narrow : ¬ Wide x → ∃ d, number? t = some d ∧ d.toValue = .ok (.number x)

theorem readsBack_zero {x : Float} {s : Sign} (hx : form x = .zero s) (h : x.isFinite = true) :
    ReadsBack x (signText (isNegative x) (Utf8.encode (magnitudeText x))) := by
  have hnot : ¬ Wide x := by
    rw [Wide, abs_of_zero hx]
    decide +kernel
  have hwrites := writes_zero hx
  have hvalue : Decimal.value ⟨0, 0⟩ = 0 := by simp [Decimal.value]
  have hfloat : (Numeral.ofChars ['0'] (some ['0']) none).decimal.toFloat = x.abs := by
    rw [Decimal.toFloat_congr (hwrites.value_eq.trans hvalue.symm), Decimal.toFloat_zero rfl,
      abs_of_zero hx]
  refine ⟨fun hwide => absurd hwide hnot, fun _ => ⟨.float64 x, ?_, rfl⟩⟩
  rw [← hwrites.text_eq]
  exact Numeral.number?_float hwrites.proper hwrites.short h hfloat fun h => by cases h.1

/-- A number other than zero whose text is all digits. -/
theorem readsBack_digits {x : Float} {s : Sign} {m : ℕ} {e : ℤ} {hm : 0 < m}
    (hx : form x = .finite s m e hm) {n : Numeral}
    (hn : n.Writes (magnitudeText x) (shortest x.abs).value)
    (hdigits : n.text.all isDigit = true ∧ natOf n.text < 0x10000000000000000) :
    ReadsBack x (signText (isNegative x) n.text) := by
  have habs := form_abs_finite hx
  have hdecimal := Numeral.decimal_of_all hdigits.1
  have hfloat : n.decimal.toFloat = x.abs := by
    rw [Decimal.toFloat_congr hn.value_eq, shortest_toFloat habs]
  have hvalue := hn.natOf_eq hdigits.1
  have hnumber := number?_signText (isNegative x) (Numeral.text_ne_nil hn.proper)
    (Numeral.head?_text hn.proper)
  obtain ⟨h0, -⟩ := Decimal.magnitude_bounds (d := n.decimal) (by rw [hfloat, habs])
  have hcases := wide_cases hx
  rw [if_pos (by simpa using hdigits)] at hnumber
  rw [hdecimal] at hfloat h0
  rw [← hvalue] at hcases
  generalize natOf n.text = k at hnumber hfloat h0 hdigits hcases
  have hback := ofInt_signed (isNegative x) h0 hdigits.2
  rw [hfloat, signed_abs] at hback
  rcases hcases with ⟨hnot, hlt⟩ | ⟨hwide, hlow, -⟩ | ⟨-, hlow⟩
  · have hlt' : k < 2 ^ 63 := by exact_mod_cast hlt
    refine ⟨fun hwide => absurd hwide hnot, fun _ =>
      ⟨.int64 (if isNegative x then -k else k), ?_, ?_⟩⟩
    · rw [hnumber]
      cases isNegative x with
      | true => exact if_pos hlt'.le
      | false => exact if_pos hlt'
    · rw [Datum.toValue, hback]
  · have hlow' : 2 ^ 63 < k := by exact_mod_cast hlow
    refine ⟨fun _ => ?_, fun hnot => absurd hwide hnot⟩
    rw [hnumber]
    cases isNegative x with
    | true => exact if_neg (Nat.not_le.mpr hlow')
    | false => exact if_neg (Nat.not_lt.mpr hlow'.le)
  · have hlow' : 2 ^ 64 < k := by exact_mod_cast hlow
    omega

/-- **A finite number is read back as that number, unless it is wide**: then its text is refused. -/
theorem readsBack_writeNumber {x : Float} (h : x.isFinite = true) :
    ReadsBack x (writeNumber x) := by
  rw [writeNumber_eq h]
  rcases form_of_isFinite h with ⟨s, hx⟩ | ⟨s, m, e, hm, hx⟩
  · exact readsBack_zero hx h
  obtain ⟨n, hn, hall⟩ := exists_numeral hx
  rw [← hn.text_eq]
  by_cases hdigits : n.text.all isDigit = true ∧ natOf n.text < 0x10000000000000000
  · exact readsBack_digits hx hn hdigits
  have hfloat : n.decimal.toFloat = x.abs := by
    rw [Decimal.toFloat_congr hn.value_eq, shortest_toFloat (form_abs_finite hx)]
  have hread := Numeral.number?_float hn.proper hn.short h hfloat hdigits
  refine ⟨fun hwide => absurd ⟨hall hwide, ?_⟩ hdigits, fun _ => ⟨.float64 x, hread, rfl⟩⟩
  have hlt : (natOf n.text : ℚ) < 2 ^ 64 := by
    rw [hn.natOf_eq (hall hwide)]
    exact (value_of_wide hx hwide).2
  exact_mod_cast hlt

end Json

end SmallLisp
