import SmallLisp.Text.Utf8

/-!
# Characters survive as bytes

Writing characters as UTF-8 and reading the bytes again gives the characters back
(`Utf8.decode_encode`). The sequence of one character is read as that character whatever follows it
(`Utf8.charAt?_encodeChar`). Any bytes are read line by line (`Utf8.decode_newline`). Bytes that are
read without a stray one are those of characters (`Utf8.encode_decode`).
-/

namespace SmallLisp

namespace Utf8

/-! ## 1. Sequences of each length -/

theorem not_lt_of_le {a x : UInt8} {n : Nat} (h : n ≤ a.toNat) (hx : x.toNat ≤ n) : ¬ a < x := by
  rw [UInt8.lt_iff_toNat_lt]
  omega

theorem bne_or_le {a b x y : UInt8} (h : a.toNat = x.toNat → y.toNat ≤ b.toNat) :
    (a != x || decide (y ≤ b)) = true := by
  rw [Bool.or_eq_true, bne_iff_ne, decide_eq_true_iff, UInt8.le_iff_toNat_le]
  by_cases hax : a = x
  · exact .inr (h (by rw [hax]))
  · exact .inl hax

theorem charAt?_one {a : UInt8} (ha : a.toNat < 0x80) (t : Text) :
    charAt? a t = some (Char.ofNat a.toNat, 0) := by
  unfold charAt?
  rw [if_pos (UInt8.lt_iff_toNat_lt.mpr ha)]

theorem charAt?_two {a b : UInt8} (ha : 0xC2 ≤ a.toNat) (ha' : a.toNat < 0xE0)
    (hb : isTail b = true) (t : Text) :
    charAt? a (b :: t) = some (Char.ofNat ((a.toNat - 0xC0) * 64 + tailBits b), 1) := by
  unfold charAt?
  rw [if_neg (not_lt_of_le ha (by decide)), if_neg (not_lt_of_le ha (by decide)),
    if_pos (UInt8.lt_iff_toNat_lt.mpr ha')]
  simp only [hb, if_true]

/-- Three bytes: the second one must rule out overlong forms and surrogates. -/
theorem charAt?_three {a b c : UInt8} (ha : 0xE0 ≤ a.toNat) (ha' : a.toNat < 0xF0)
    (hb : isTail b = true) (hc : isTail c = true) (hlow : a.toNat = 0xE0 → 0xA0 ≤ b.toNat)
    (hhigh : a.toNat = 0xED → b.toNat ≤ 0x9F) (t : Text) :
    charAt? a (b :: c :: t)
      = some (Char.ofNat ((a.toNat - 0xE0) * 4096 + tailBits b * 64 + tailBits c), 2) := by
  have hlow' : (a != 0xE0 || decide ((0xA0 : UInt8) ≤ b)) = true := bne_or_le hlow
  have hhigh' : (a != 0xED || decide (b ≤ (0x9F : UInt8))) = true := bne_or_le hhigh
  unfold charAt?
  rw [if_neg (not_lt_of_le ha (by decide)), if_neg (not_lt_of_le ha (by decide)),
    if_neg (not_lt_of_le ha (by decide)), if_pos (UInt8.lt_iff_toNat_lt.mpr ha')]
  simp only [hb, hc, hlow', hhigh', Bool.and_self, if_true]

/-- Four bytes: the second one must rule out overlong forms and what is past the last character. -/
theorem charAt?_four {a b c d : UInt8} (ha : 0xF0 ≤ a.toNat) (ha' : a.toNat < 0xF5)
    (hb : isTail b = true) (hc : isTail c = true) (hd : isTail d = true)
    (hlow : a.toNat = 0xF0 → 0x90 ≤ b.toNat) (hhigh : a.toNat = 0xF4 → b.toNat ≤ 0x8F) (t : Text) :
    charAt? a (b :: c :: d :: t) = some (Char.ofNat
      ((a.toNat - 0xF0) * 262144 + tailBits b * 4096 + tailBits c * 64 + tailBits d), 3) := by
  have hlow' : (a != 0xF0 || decide ((0x90 : UInt8) ≤ b)) = true := bne_or_le hlow
  have hhigh' : (a != 0xF4 || decide (b ≤ (0x8F : UInt8))) = true := bne_or_le hhigh
  unfold charAt?
  rw [if_neg (not_lt_of_le ha (by decide)), if_neg (not_lt_of_le ha (by decide)),
    if_neg (not_lt_of_le ha (by decide)), if_neg (not_lt_of_le ha (by decide)),
    if_pos (UInt8.lt_iff_toNat_lt.mpr ha')]
  simp only [hb, hc, hd, hlow', hhigh', Bool.and_self, if_true]

/-! ## 2. One character -/

theorem toNat_byte {n : Nat} (h : n < 256) : (UInt8.ofNat n).toNat = n := by
  rw [UInt8.toNat_ofNat']
  omega

theorem isTail_byte {n : Nat} (h : n < 64) : isTail (UInt8.ofNat (0x80 + n)) = true := by
  unfold isTail
  rw [Bool.and_eq_true, decide_eq_true_iff, decide_eq_true_iff, UInt8.le_iff_toNat_le,
    UInt8.le_iff_toNat_le, toNat_byte (by omega)]
  show 0x80 ≤ 0x80 + n ∧ 0x80 + n ≤ 0xBF
  omega

theorem tailBits_byte {n : Nat} (h : n < 64) : tailBits (UInt8.ofNat (0x80 + n)) = n := by
  unfold tailBits
  rw [toNat_byte (by omega)]
  omega

/-- **The sequence of a character is read as that character**, whatever follows. -/
theorem charAt?_encodeChar (c : Char) (t : Text) : ∃ a rest, encodeChar c = a :: rest ∧
    charAt? a (rest ++ t) = some (c, rest.length) := by
  have hc : c = Char.ofNat c.toNat := (Char.ofNat_toNat c).symm
  have hvalid : c.toNat < 0xD800 ∨ 0xDFFF < c.toNat ∧ c.toNat < 0x110000 := c.valid
  unfold encodeChar
  generalize c.toNat = n at hc hvalid
  subst hc
  dsimp only
  split
  · rename_i h1
    refine ⟨_, _, rfl, ?_⟩
    rw [charAt?_one (by rw [toNat_byte (by omega)]; exact h1), toNat_byte (by omega)]
    rfl
  split
  · rename_i h1 h2
    have ha := toNat_byte (by omega : 0xC0 + n / 64 < 256)
    refine ⟨_, _, rfl, ?_⟩
    rw [List.singleton_append, charAt?_two (by omega) (by omega) (isTail_byte (by omega)), ha,
      tailBits_byte (by omega), show (0xC0 + n / 64 - 0xC0) * 64 + n % 64 = n by omega]
    rfl
  split
  · rename_i h1 h2 h3
    have ha := toNat_byte (by omega : 0xE0 + n / 4096 < 256)
    have hb := toNat_byte (by omega : 0x80 + n / 64 % 64 < 256)
    refine ⟨_, _, rfl, ?_⟩
    rw [List.cons_append, List.singleton_append,
      charAt?_three (by omega) (by omega) (isTail_byte (by omega)) (isTail_byte (by omega))
        (by omega) (by omega), ha, tailBits_byte (by omega), tailBits_byte (by omega),
      show (0xE0 + n / 4096 - 0xE0) * 4096 + n / 64 % 64 * 64 + n % 64 = n by omega]
    rfl
  · rename_i h1 h2 h3
    have ha := toNat_byte (by omega : 0xF0 + n / 262144 < 256)
    have hb := toNat_byte (by omega : 0x80 + n / 4096 % 64 < 256)
    refine ⟨_, _, rfl, ?_⟩
    rw [List.cons_append, List.cons_append, List.singleton_append,
      charAt?_four (by omega) (by omega) (isTail_byte (by omega)) (isTail_byte (by omega))
        (isTail_byte (by omega)) (by omega) (by omega), ha, tailBits_byte (by omega),
      tailBits_byte (by omega), tailBits_byte (by omega),
      show (0xF0 + n / 262144 - 0xF0) * 262144 + n / 4096 % 64 * 4096 + n / 64 % 64 * 64 + n % 64
        = n by omega]
    rfl

/-- A byte of a character is the character itself or no ASCII. -/
theorem mem_encodeChar {c : Char} {b : UInt8} (h : b ∈ encodeChar c) :
    b.toNat = c.toNat ∨ 0x80 ≤ b.toNat := by
  have hvalid : c.toNat < 0xD800 ∨ 0xDFFF < c.toNat ∧ c.toNat < 0x110000 := c.valid
  unfold encodeChar at h
  generalize c.toNat = n at h hvalid ⊢
  dsimp only at h
  split at h
  · obtain rfl := List.mem_singleton.mp h
    exact .inl (toNat_byte (by omega))
  right
  -- the longer sequences
  split at h
  · simp only [List.mem_cons, List.not_mem_nil, or_false] at h
    rcases h with rfl | rfl <;> rw [toNat_byte (by omega)] <;> omega
  split at h
  · simp only [List.mem_cons, List.not_mem_nil, or_false] at h
    rcases h with rfl | rfl | rfl <;> rw [toNat_byte (by omega)] <;> omega
  · simp only [List.mem_cons, List.not_mem_nil, or_false] at h
    rcases h with rfl | rfl | rfl | rfl <;> rw [toNat_byte (by omega)] <;> omega

/-! ## 3. All characters -/

theorem encode_append (cs cs' : List Char) : encode (cs ++ cs') = encode cs ++ encode cs' :=
  List.flatMap_append

theorem encode_cons (c : Char) (cs : List Char) : encode (c :: cs) = encodeChar c ++ encode cs :=
  List.flatMap_cons

theorem piecesFrom_skip (rest t : Text) : piecesFrom rest.length (rest ++ t) = piecesFrom 0 t := by
  induction rest with
  | nil => rfl
  | cons b rest ih => exact ih

theorem pieces_encodeChar (c : Char) (t : Text) :
    pieces (encodeChar c ++ t) = .char c :: pieces t := by
  obtain ⟨a, rest, hencode, hchar⟩ := charAt?_encodeChar c t
  unfold pieces
  rw [hencode, List.cons_append, piecesFrom, hchar]
  exact congrArg (Piece.char c :: ·) (piecesFrom_skip rest t)

theorem pieces_encode (cs : List Char) : pieces (encode cs) = cs.map .char := by
  induction cs with
  | nil => rfl
  | cons c cs ih =>
    rw [encode_cons, pieces_encodeChar, ih, List.map_cons]

/-- **Characters written as UTF-8 read back.** -/
theorem decode_encode (cs : List Char) : decode (encode cs) = cs := by
  unfold decode
  rw [pieces_encode, List.map_map]
  exact List.map_id cs

theorem decode_ofString (s : String) : decode (Text.ofString s) = s.toList := decode_encode _

/-! ## 4. Lines -/

/-- A line feed belongs to no longer sequence: what comes after it does not matter before it. -/
theorem charAt?_newline (a : UInt8) (rest t : Text) :
    charAt? a (rest ++ 0x0A :: t) = charAt? a rest := by
  have htail : isTail 0x0A = false := rfl
  -- a sequence has at most three bytes after its first
  rcases rest with _ | ⟨b, _ | ⟨c, _ | ⟨d, rest⟩⟩⟩
  · rcases t with _ | ⟨x, _ | ⟨y, t⟩⟩ <;> simp [charAt?, htail]
  · rcases t with _ | ⟨x, t⟩ <;> simp [charAt?, htail]
  · simp [charAt?, htail]
  · simp [charAt?]

theorem width_le_of_charAt? {a : UInt8} {rest : Text} {c : Char} {width : Nat}
    (h : charAt? a rest = some (c, width)) : width ≤ rest.length := by
  unfold charAt? at h
  repeat' split at h
  all_goals simp only [Option.some.injEq, Prod.mk.injEq, reduceCtorEq] at h
  all_goals
    rw [← h.2]
    simp

theorem piecesFrom_newline (skip : Nat) (t u : Text) (h : skip ≤ t.length) :
    piecesFrom skip (t ++ 0x0A :: u) = piecesFrom skip t ++ .char '\n' :: pieces u := by
  induction t generalizing skip with
  | nil =>
    obtain rfl := Nat.le_zero.mp h
    rfl
  | cons a t ih =>
    cases skip with
    | succ skip => exact ih skip (Nat.le_of_succ_le_succ h)
    | zero =>
      rw [List.cons_append, piecesFrom, charAt?_newline, piecesFrom]
      split
      · rename_i c width hchar
        rw [ih width (width_le_of_charAt? hchar)]
        rfl
      · rw [ih 0 (Nat.zero_le _)]
        rfl

/-- **Lines are read one by one.** -/
theorem decode_newline (t u : Text) : decode (t ++ 0x0A :: u) = decode t ++ '\n' :: decode u := by
  unfold decode pieces
  rw [piecesFrom_newline 0 t u (Nat.zero_le _), List.map_append]
  rfl

/-! ## 5. Valid bytes -/

theorem toNat_ofNat {n : Nat} (h : n < 0xD800 ∨ 0xDFFF < n ∧ n < 0x110000) :
    (Char.ofNat n).toNat = n := by
  have hvalid : n.isValidChar := h
  unfold Char.ofNat
  rw [dif_pos hvalid]
  rfl

theorem isTail_iff (b : UInt8) : isTail b = true ↔ 0x80 ≤ b.toNat ∧ b.toNat ≤ 0xBF := by
  unfold isTail
  rw [Bool.and_eq_true, decide_eq_true_iff, decide_eq_true_iff, UInt8.le_iff_toNat_le,
    UInt8.le_iff_toNat_le]
  rfl

theorem byte_eq {n : Nat} {b : UInt8} (h : n = b.toNat) : UInt8.ofNat n = b := by
  rw [h, UInt8.ofNat_toNat]

theorem le_of_bne_or {a b x y z w : UInt8} (h : (a != x || decide (y ≤ b)) = true)
    (h' : (a != z || decide (b ≤ w)) = true) :
    (a.toNat = x.toNat → y.toNat ≤ b.toNat) ∧ (a.toNat = z.toNat → b.toNat ≤ w.toNat) := by
  rw [Bool.or_eq_true, bne_iff_ne, decide_eq_true_iff, UInt8.le_iff_toNat_le] at h h'
  exact ⟨fun hax => h.resolve_left fun hne => hne (UInt8.toNat_inj.mp hax),
    fun haz => h'.resolve_left fun hne => hne (UInt8.toNat_inj.mp haz)⟩

theorem encodeChar_one {n : Nat} (h : n < 0x80) : encodeChar (Char.ofNat n) = [UInt8.ofNat n] := by
  unfold encodeChar
  rw [toNat_ofNat (by omega)]
  exact if_pos h

theorem encodeChar_two {n : Nat} (h : 0x80 ≤ n) (h' : n < 0x800) : encodeChar (Char.ofNat n) =
    [UInt8.ofNat (0xC0 + n / 64), UInt8.ofNat (0x80 + n % 64)] := by
  unfold encodeChar
  rw [toNat_ofNat (by omega)]
  dsimp only
  rw [if_neg (by omega), if_pos h']

theorem encodeChar_three {n : Nat} (h : 0x800 ≤ n) (h' : n < 0x10000)
    (hvalid : n < 0xD800 ∨ 0xDFFF < n) : encodeChar (Char.ofNat n) =
    [UInt8.ofNat (0xE0 + n / 4096), UInt8.ofNat (0x80 + n / 64 % 64),
      UInt8.ofNat (0x80 + n % 64)] := by
  unfold encodeChar
  rw [toNat_ofNat (by omega)]
  dsimp only
  rw [if_neg (by omega), if_neg (by omega), if_pos h']

theorem encodeChar_four {n : Nat} (h : 0x10000 ≤ n) (h' : n < 0x110000) :
    encodeChar (Char.ofNat n) =
    [UInt8.ofNat (0xF0 + n / 262144), UInt8.ofNat (0x80 + n / 4096 % 64),
      UInt8.ofNat (0x80 + n / 64 % 64), UInt8.ofNat (0x80 + n % 64)] := by
  unfold encodeChar
  rw [toNat_ofNat (by omega)]
  dsimp only
  rw [if_neg (by omega), if_neg (by omega), if_neg (by omega)]

/-- **What is read as a character is the sequence of that character.** -/
theorem encodeChar_of_charAt? {a : UInt8} {rest : Text} {c : Char} {width : Nat}
    (h : charAt? a rest = some (c, width)) : encodeChar c = a :: rest.take width := by
  unfold charAt? at h
  simp only [UInt8.lt_iff_toNat_lt, UInt8.reduceToNat] at h
  repeat' split at h
  all_goals simp only [Option.some.injEq, Prod.mk.injEq, reduceCtorEq] at h
  all_goals obtain ⟨rfl, rfl⟩ := h
  · rename_i h1
    rw [encodeChar_one h1, byte_eq rfl, List.take_zero]
  · rename_i h1 h2 h3 _ b _ hb
    rw [isTail_iff] at hb
    unfold tailBits
    rw [encodeChar_two (by omega) (by omega), byte_eq (b := a) (by omega),
      byte_eq (b := b) (by omega)]
    rfl
  · rename_i h1 h2 h3 h4 _ b c _ htails
    simp only [Bool.and_eq_true] at htails
    obtain ⟨⟨⟨hb, hc⟩, hlow⟩, hhigh⟩ := htails
    obtain ⟨hlow', hhigh'⟩ := le_of_bne_or hlow hhigh
    simp only [UInt8.reduceToNat] at hlow' hhigh'
    rw [isTail_iff] at hb hc
    unfold tailBits
    rw [encodeChar_three (by omega) (by omega) (by omega), byte_eq (b := a) (by omega),
      byte_eq (b := b) (by omega), byte_eq (b := c) (by omega)]
    rfl
  · rename_i h1 h2 h3 h4 h5 _ b c d _ htails
    simp only [Bool.and_eq_true] at htails
    obtain ⟨⟨⟨⟨hb, hc⟩, hd⟩, hlow⟩, hhigh⟩ := htails
    obtain ⟨hlow', hhigh'⟩ := le_of_bne_or hlow hhigh
    simp only [UInt8.reduceToNat] at hlow' hhigh'
    rw [isTail_iff] at hb hc hd
    unfold tailBits
    rw [encodeChar_four (by omega) (by omega), byte_eq (b := a) (by omega),
      byte_eq (b := b) (by omega), byte_eq (b := c) (by omega), byte_eq (b := d) (by omega)]
    rfl

/-- The pieces of a byte string are its bytes. -/
theorem bytes_piecesFrom (skip : Nat) (t : Text) :
    (piecesFrom skip t).flatMap Piece.bytes = t.drop skip := by
  fun_induction piecesFrom skip t with
  | case1 skip => simp
  | case2 skip b rest ih => simpa using ih
  | case3 a rest c width hchar ih =>
    rw [List.flatMap_cons, ih, Piece.bytes, encodeChar_of_charAt? hchar, List.cons_append,
      List.take_append_drop, List.drop_zero]
  | case4 a rest hchar ih => simp [ih, Piece.bytes]

/-- **Valid bytes are those of the characters they read as.** -/
theorem encode_decode {t : Text} (h : isValid t = true) : encode (decode t) = t := by
  have hbytes : (pieces t).flatMap Piece.bytes = t := bytes_piecesFrom 0 t
  unfold isValid at h
  rw [List.all_eq_true] at h
  unfold encode decode
  rw [List.flatMap_map]
  refine Eq.trans ?_ hbytes
  rw [List.flatMap_def, List.flatMap_def]
  refine congrArg List.flatten (List.map_congr_left fun p hp => ?_)
  cases p with
  | char c => rfl
  | stray b => cases h _ hp

/-- A line of bytes is a line of characters. -/
theorem newline_not_mem_decode {t : Text} (h : 0x0A ∉ t) : '\n' ∉ decode t := by
  have hbytes : (pieces t).flatMap Piece.bytes = t := bytes_piecesFrom 0 t
  intro hmem
  obtain ⟨p, hp, hchar⟩ := List.mem_map.mp hmem
  cases p with
  | char c =>
    obtain rfl : c = '\n' := hchar
    rw [← hbytes] at h
    exact h (List.mem_flatMap.mpr ⟨_, hp, List.mem_singleton.mpr rfl⟩)
  | stray b => exact absurd (show replacement = '\n' from hchar) (by decide)

/-- A text has as many line feeds in characters as in bytes. -/
theorem count_newline_decode (t : Text) : (decode t).count '\n' = t.count 0x0A := by
  by_cases h : 0x0A ∈ t
  · obtain ⟨line, rest, ht, hline⟩ := List.eq_append_cons_of_mem h
    have hrest : rest.length < t.length := by
      rw [ht, List.length_append, List.length_cons]
      omega
    rw [ht, decode_newline, List.count_append, List.count_append, List.count_cons_self,
      List.count_cons_self, List.count_eq_zero_of_not_mem hline,
      List.count_eq_zero_of_not_mem (newline_not_mem_decode hline), count_newline_decode rest]
  · rw [List.count_eq_zero_of_not_mem h, List.count_eq_zero_of_not_mem (newline_not_mem_decode h)]
termination_by t.length

end Utf8

end SmallLisp
