import Mathlib
import SmallLisp.Proofs.Interchange.Datum
import SmallLisp.Proofs.Interchange.JsonFloat

/-!
# JSON data are read back

What is written is read, whatever follows it, as long as a number does not go on.

* Strings character by character: one is written as it is, or as an escape that stands for it
  (`escapePiece_cases`), and valid strings are read back (`stringFrom_pieces`).
* Numbers as their text is read. `reread` says what becomes of a datum in this way, and data are
  read as that by induction over their structure (`reads_write`).
* So a value comes back as its content, or it is refused if a wide number is reached in it
  (`json_back`).
-/

namespace SmallLisp

namespace Json

open Utf8

/-! ## 1. Strings -/

theorem stringFrom_skip (t u : Text) : stringFrom t.length (t ++ u) = stringFrom 0 u := by
  induction t with
  | nil => rfl
  | cons b t ih => exact ih

/-- The code points that are written with four hexadecimal digits. -/
def coded : List Nat := List.range 0x20 ++ [0x3C, 0x3E, 0x26, 0x2028, 0x2029]

/-- The text is an escape with four hexadecimal digits for the code point. -/
def isCode (n : Nat) : Text → Bool
  | [e, u, a, b, c, d] => e == 0x5C && u == 0x75 && codeUnit a b c d == n
  | _ => false

theorem isCode_coded : coded.all (fun n =>
    isCode n (Text.ofString "\\u" ++ Text.ofString (hexDigits 4 n)) && !isSurrogate n) = true := by
  decide +kernel

theorem escape?_of_isCode {n : Nat} {w : Text} (h : isCode n w = true)
    (hn : isSurrogate n = false) :
    ∃ e, w = 0x5C :: e ∧ ∀ t, escape? (e ++ t) = some (encodeChar (Char.ofNat n), e.length) := by
  unfold isCode at h
  split at h
  · rename_i e u a b c d
    simp only [Bool.and_eq_true, beq_iff_eq] at h
    obtain ⟨⟨rfl, rfl⟩, hcode⟩ := h
    refine ⟨_, rfl, fun t => ?_⟩
    simp [escape?, unicodeEscape?, hcode, hn]
  · cases h

/-- A character is written as it is, or as an escape that stands for it. -/
theorem escapePiece_cases (c : Char) :
    (escapePiece (.char c) = encodeChar c ∧ ∀ b ∈ encodeChar c, b ≠ 0x22 ∧ b ≠ 0x5C) ∨
    ∃ e, escapePiece (.char c) = 0x5C :: e ∧
      ∀ t, escape? (e ++ t) = some (encodeChar c, e.length) := by
  have hc := Char.ofNat_toNat c
  unfold escapePiece
  dsimp only
  split
  case h_1 h | h_2 h | h_3 h | h_4 h | h_5 h | h_6 h | h_7 h =>
    rw [h] at hc
    subst hc
    exact .inr ⟨_, rfl, fun t => rfl⟩
  case h_8 h1 h2 h3 h4 h5 h6 h7 =>
    split
    · rename_i hcoded
      have hmem : c.toNat ∈ coded := by
        simp [coded] at hcoded ⊢
        omega
      have hcode := List.all_eq_true.mp isCode_coded _ hmem
      rw [Bool.and_eq_true, Bool.not_eq_true'] at hcode
      have hescape := escape?_of_isCode hcode.1 hcode.2
      rw [hc] at hescape
      exact .inr hescape
    · rename_i hplain
      refine .inl ⟨rfl, fun b hb => ⟨?_, ?_⟩⟩
      · rintro rfl
        rcases mem_encodeChar hb with hb | hb
        · exact h1 hb.symm
        · exact absurd hb (by decide)
      · rintro rfl
        rcases mem_encodeChar hb with hb | hb
        · exact h2 hb.symm
        · exact absurd hb (by decide)

/-- Bytes other than the quote and the backslash stand for themselves. -/
theorem stringFrom_bytes {w : Text} (h : ∀ b ∈ w, b ≠ 0x22 ∧ b ≠ 0x5C) (t : Text) :
    stringFrom 0 (w ++ t) = (stringFrom 0 t).map fun p => (w ++ p.1, p.2) := by
  induction w with
  | nil => simp
  | cons b w ih =>
    obtain ⟨hquote, hslash⟩ := h b List.mem_cons_self
    rw [List.cons_append, stringFrom, if_neg hquote, if_neg hslash,
      ih fun c hc => h c (List.mem_cons_of_mem b hc), Option.map_map]
    rfl

theorem stringFrom_escape {e bytes : Text} (h : ∀ t, escape? (e ++ t) = some (bytes, e.length))
    (t : Text) :
    stringFrom 0 (0x5C :: e ++ t) = (stringFrom 0 t).map fun p => (bytes ++ p.1, p.2) := by
  rw [List.cons_append, stringFrom, if_neg (by decide), if_pos rfl, h]
  dsimp only
  rw [stringFrom_skip]

/-- **One written character is read back**, whatever follows. -/
theorem stringFrom_escapePiece (c : Char) (t : Text) : stringFrom 0 (escapePiece (.char c) ++ t) =
    (stringFrom 0 t).map fun p => (encodeChar c ++ p.1, p.2) := by
  rcases escapePiece_cases c with ⟨hplain, hbytes⟩ | ⟨e, hescape, he⟩
  · rw [hplain, stringFrom_bytes hbytes]
  · rw [hescape, stringFrom_escape he]

theorem stringFrom_characters (cs : List Char) (rest : Text) :
    stringFrom 0 ((cs.map .char).flatMap escapePiece ++ 0x22 :: rest) = some (encode cs, rest) := by
  induction cs with
  | nil => rfl
  | cons c cs ih =>
    rw [List.map_cons, List.flatMap_cons, List.append_assoc, stringFrom_escapePiece, ih]
    rfl

theorem writeString_eq (s : Text) :
    writeString s = 0x22 :: ((pieces s).flatMap escapePiece ++ [0x22]) := rfl

/-- **A valid string is read back**, whatever follows. -/
theorem stringFrom_pieces {s : Text} (h : Utf8.isValid s = true) (rest : Text) :
    stringFrom 0 ((pieces s).flatMap escapePiece ++ [0x22] ++ rest) = some (s, rest) := by
  have hpieces : pieces s = (decode s).map .char := by rw [← pieces_encode, encode_decode h]
  rw [hpieces, List.append_assoc, List.singleton_append, stringFrom_characters, encode_decode h]

/-! ## 2. Data -/

mutual

/-- What is read where a datum was written: the same, but a number is read as its text is. -/
def reread : Datum → Option Datum
  | .float64 x => number? (writeNumber x)
  | .array items => (rereadAll items).map .array
  | d => some d

/-- What is read where some data were written. -/
def rereadAll : List Datum → Option (List Datum)
  | [] => some []
  | d :: ds =>
    match reread d with
    | none => none
    | some d => (rereadAll ds).map (d :: ·)

end

/-- The text does not go on with a number. -/
def Ends (t : Text) : Prop := ∀ b, t.head? = some b → isNumeric b = false

theorem Ends.takeWhile {t : Text} (h : Ends t) : t.takeWhile isNumeric = [] := by
  cases t with
  | nil => rfl
  | cons b t => simp [h b rfl]

theorem Ends.dropWhile {t : Text} (h : Ends t) : t.dropWhile isNumeric = t := by
  cases t with
  | nil => rfl
  | cons b t => simp [h b rfl]

theorem ends_cons {b : UInt8} (h : isNumeric b = false) (t : Text) : Ends (b :: t) := by
  rintro c ⟨rfl⟩
  exact h

theorem skipSpace_cons {b : UInt8} (h : 0x20 < b) (t : Text) : skipSpace (b :: t) = b :: t := by
  have hspace : isSpaceByte b = false := by
    simp only [isSpaceByte, decide_eq_false_iff_not, UInt8.not_le]
    exact h
  simp [skipSpace, hspace]

theorem expect_cons {b : UInt8} (h : 0x20 < b) (c : UInt8) (t : Text) :
    expect c (b :: t) = if b = c then some t else none := by
  unfold expect
  rw [skipSpace_cons h]

/-- The datum is read as `d?` from its text inside `depth` arrays and maps, if the fuel is twice the
    length of the text. -/
structure Reads (depth : Nat) (d : Datum) (d? : Option Datum) : Prop where
  lead : ∃ b t, write d = b :: t ∧ 0x20 < b ∧ b ≠ 0x5D
  value : ∀ fuel, 2 * (write d).length ≤ fuel → ∀ rest, Ends rest →
    value fuel depth (write d ++ rest) = d?.map fun d => (d, rest)

/-- A datum with nothing inside is read with any fuel. -/
theorem reads_leaf {depth : Nat} {d : Datum} {d? : Option Datum} {b : UInt8} {t : Text}
    (hwrite : write d = b :: t) (hspace : 0x20 < b) (hclose : b ≠ 0x5D)
    (h : ∀ fuel rest, Ends rest →
      Json.value (fuel + 1) depth (b :: (t ++ rest)) = d?.map fun d => (d, rest)) :
    Reads depth d d? where
  lead := ⟨b, t, hwrite, hspace, hclose⟩
  value fuel hfuel rest hrest := by
    rw [hwrite, List.length_cons] at hfuel
    obtain ⟨fuel, rfl⟩ := Nat.exists_eq_succ_of_ne_zero (show fuel ≠ 0 by omega)
    rw [hwrite, List.cons_append]
    exact h fuel rest hrest

theorem literal_append (word : String) (d : Datum) (rest : Text) :
    literal word d (Text.ofString word ++ rest) = some (d, rest) := by
  simp [literal, Text.after?]

/-- A literal word, which its first letter tells. -/
theorem reads_word {depth : Nat} {d : Datum} {word : String} {b : UInt8} {t : Text}
    (hwrite : write d = Text.ofString word) (hword : Text.ofString word = b :: t)
    (hspace : 0x20 < b) (hclose : b ≠ 0x5D)
    (h : ∀ fuel u, Json.value (fuel + 1) depth (b :: u) = literal word d (b :: u)) :
    Reads depth d (some d) := by
  refine reads_leaf (hwrite.trans hword) hspace hclose fun fuel rest _ => ?_
  rw [h, ← List.cons_append, ← hword, literal_append]
  rfl

theorem reads_null (depth : Nat) : Reads depth .null (some .null) := by
  refine reads_word (by rw [write]) (rfl : Text.ofString "null" = _) (by decide) (by decide) ?_
  intro fuel u
  rw [Json.value, skipSpace_cons (by decide)]
  rfl

theorem reads_bool (depth : Nat) (b : Bool) : Reads depth (.bool b) (some (.bool b)) := by
  cases b with
  | true =>
    refine reads_word (by rw [write]; rfl) (rfl : Text.ofString "true" = _) (by decide)
      (by decide) ?_
    intro fuel u
    rw [Json.value, skipSpace_cons (by decide)]
    rfl
  | false =>
    refine reads_word (by rw [write]; rfl) (rfl : Text.ofString "false" = _) (by decide)
      (by decide) ?_
    intro fuel u
    rw [Json.value, skipSpace_cons (by decide)]
    rfl

theorem reads_string (depth : Nat) {s : Text} (h : Utf8.isValid s = true) :
    Reads depth (.string s) (some (.string s)) := by
  refine reads_leaf (b := 0x22) (t := (pieces s).flatMap escapePiece ++ [0x22]) ?_ (by decide)
    (by decide) ?_
  · rw [write, writeString_eq]
  · intro fuel rest _
    rw [Json.value, skipSpace_cons (by decide)]
    dsimp only
    rw [if_pos rfl, stringFrom_pieces h]
    rfl

/-- A numeric byte is no other sign of the format. -/
theorem numeric_lead {b : UInt8} (h : isNumeric b = true) : 0x20 < b ∧ b ≠ 0x22 ∧ b ≠ 0x6E ∧
    b ≠ 0x74 ∧ b ≠ 0x66 ∧ b ≠ 0x5B ∧ b ≠ 0x7B ∧ b ≠ 0x5D := by
  have hlow : 0x20 < b := by
    simp only [isNumeric, isDigit, isExponentMark, Bool.or_eq_true, Bool.and_eq_true, beq_iff_eq,
      decide_eq_true_iff] at h
    rcases h with (((⟨h, -⟩ | rfl) | rfl) | rfl) | rfl | rfl
    · exact UInt8.lt_of_lt_of_le (b := 0x30) (by decide) h
    all_goals decide
  refine ⟨hlow, ?_, ?_, ?_, ?_, ?_, ?_, ?_⟩
  all_goals
    rintro rfl
    cases h

theorem reads_float64 (depth : Nat) {x : Float} (h : x.isFinite = true) :
    Reads depth (.float64 x) (number? (writeNumber x)) := by
  obtain ⟨hne, hnumeric⟩ := isNumeric_writeNumber h
  obtain ⟨b, t, hwrite⟩ := List.exists_cons_of_ne_nil hne
  rw [hwrite] at hnumeric ⊢
  obtain ⟨hspace, h1, h2, h3, h4, h5, h6, hclose⟩ := numeric_lead (hnumeric b List.mem_cons_self)
  refine reads_leaf (b := b) (t := t) (by rw [write, hwrite]) hspace hclose ?_
  intro fuel rest hrest
  have htake : (b :: (t ++ rest)).takeWhile isNumeric = b :: t := by
    rw [← List.cons_append, List.takeWhile_append_of_pos hnumeric, hrest.takeWhile, List.append_nil]
  have hdrop : (b :: (t ++ rest)).dropWhile isNumeric = rest := by
    rw [← List.cons_append, List.dropWhile_append_of_pos hnumeric, hrest.dropWhile]
  rw [Json.value, skipSpace_cons hspace]
  dsimp only
  rw [if_neg h1, if_neg h2, if_neg h3, if_neg h4, if_neg h5, if_neg h6, htake, hdrop]

/-- An atom is the map with the single key for atoms. -/
theorem reads_atom {depth : Nat} (hdepth : depth < nestingLimit) {name : Text}
    (h : Utf8.isValid name = true) :
    Reads depth (.map [(Datum.atomKey, .string name)])
      (some (.map [(Datum.atomKey, .string name)])) := by
  have hroom : ¬ nestingLimit ≤ depth := by omega
  have hkey (t : Text) : key? (writeString Datum.atomKey ++ t) = some (Datum.atomKey, t) := by
    rw [writeString_eq, List.cons_append, key?, if_pos rfl,
      stringFrom_pieces (s := Datum.atomKey) (by decide)]
  have hwrite : write (.map [(Datum.atomKey, .string name)]) =
      0x7B :: (writeString Datum.atomKey ++ 0x3A :: (write (.string name) ++ [0x7D])) := by
    have hopen : Text.ofString "\x7b" = [0x7B] := rfl
    have hclose : Text.ofString "\x7d" = [0x7D] := rfl
    have hcolon : Text.ofString ":" = [0x3A] := rfl
    simp [write, writeEntries, Text.join, hopen, hclose, hcolon]
  refine ⟨⟨_, _, hwrite, by decide, by decide⟩, fun fuel hfuel rest _ => ?_⟩
  have hlong : 2 * (write (.string name)).length + 3 ≤ fuel := by
    rw [hwrite] at hfuel
    simp only [List.length_cons, List.length_append] at hfuel
    omega
  obtain ⟨fuel, rfl⟩ := Nat.exists_eq_add_of_le' (show 2 ≤ fuel by omega)
  have hname := (reads_string (depth + 1) h).value fuel (by omega) (0x7D :: rest)
    (ends_cons rfl rest)
  have hexpect (t : Text) : expect 0x7D (writeString Datum.atomKey ++ t) = none := by
    rw [writeString_eq, List.cons_append, expect_cons (by decide), if_neg (by decide)]
  have hskip (t : Text) :
      skipSpace (writeString Datum.atomKey ++ t) = writeString Datum.atomKey ++ t := by
    rw [writeString_eq, List.cons_append, skipSpace_cons (by decide)]
  rw [hwrite, List.cons_append, Json.value, skipSpace_cons (by decide)]
  simp only [List.append_assoc, List.cons_append, List.nil_append]
  rw [if_neg (by decide), if_neg (by decide), if_neg (by decide), if_neg (by decide),
    if_neg (by decide), if_pos trivial, if_neg hroom, hexpect, entries, hskip, hkey]
  dsimp only
  rw [expect_cons (by decide), if_pos rfl]
  dsimp only
  rw [hname]
  dsimp only [Option.map_some]
  rw [expect_cons (by decide), expect_cons (by decide), if_neg (by decide), if_pos rfl]
  rfl

theorem join_one (d : Datum) : Text.join "," (writeAll [d]) = write d := by
  simp [writeAll, Text.join]

theorem join_more (d d' : Datum) (ds : List Datum) : Text.join "," (writeAll (d :: d' :: ds)) =
    write d ++ 0x2C :: Text.join "," (writeAll (d' :: ds)) := by
  have hcomma : Text.ofString "," = [0x2C] := rfl
  simp [writeAll, Text.join, hcomma]

/-- A datum does not start as the end of an array does. -/
theorem expect_close {d : Datum} (h : ∃ b t, write d = b :: t ∧ 0x20 < b ∧ b ≠ 0x5D)
    (ds : List Datum) (rest : Text) :
    expect 0x5D (Text.join "," (writeAll (d :: ds)) ++ rest) = none := by
  obtain ⟨b, t, hwrite, hspace, hclose⟩ := h
  have hjoin : ∃ u, Text.join "," (writeAll (d :: ds)) = b :: u := by
    cases ds with
    | nil => exact ⟨t, by rw [join_one, hwrite]⟩
    | cons d' ds => exact ⟨_, by rw [join_more, hwrite, List.cons_append]⟩
  obtain ⟨u, hu⟩ := hjoin
  rw [hu, List.cons_append, expect_cons hspace, if_neg hclose]

/-- **The elements of an array**, one after the other up to its end. -/
theorem elements_writeAll {depth : Nat} (rest : Text) : ∀ (d : Datum) (ds : List Datum),
    (∀ d' ∈ d :: ds, Reads depth d' (reread d')) → ∀ fuel,
    2 * (Text.join "," (writeAll (d :: ds))).length + 1 ≤ fuel →
    elements fuel depth (Text.join "," (writeAll (d :: ds)) ++ 0x5D :: rest) =
      (rereadAll (d :: ds)).map fun ds => (ds, rest)
  | d, [], h, fuel + 1, hfuel => by
    rw [join_one] at hfuel ⊢
    have hfirst := (h d List.mem_cons_self).value fuel (by omega) (0x5D :: rest)
      (ends_cons rfl rest)
    rw [elements, hfirst, rereadAll, rereadAll]
    cases reread d with
    | none => rfl
    | some d' =>
      simp only [Option.map_some]
      rw [expect_cons (by decide), expect_cons (by decide)]
      rfl
  | d, d' :: ds, h, fuel + 1, hfuel => by
    rw [join_more] at hfuel ⊢
    rw [List.length_append, List.length_cons] at hfuel
    have hfirst := (h d List.mem_cons_self).value fuel (by omega)
      (0x2C :: (Text.join "," (writeAll (d' :: ds)) ++ 0x5D :: rest)) (ends_cons rfl _)
    have hrest := elements_writeAll rest d' ds (fun c hc => h c (List.mem_cons_of_mem d hc)) fuel
      (by omega)
    rw [List.append_assoc, List.cons_append, elements, hfirst, rereadAll]
    cases reread d with
    | none => rfl
    | some c =>
      simp only [Option.map_some]
      rw [expect_cons (by decide), if_pos rfl]
      dsimp only
      rw [hrest, Option.map_map, Option.map_map]
      rfl

theorem reads_array {depth : Nat} (hdepth : depth < nestingLimit) {ds : List Datum}
    (h : ∀ d ∈ ds, Reads (depth + 1) d (reread d)) :
    Reads depth (.array ds) (reread (.array ds)) := by
  have hroom : ¬ nestingLimit ≤ depth := by omega
  have hwrite : write (.array ds) = 0x5B :: (Text.join "," (writeAll ds) ++ [0x5D]) := by
    rw [write]
    rfl
  refine ⟨⟨_, _, hwrite, by decide, by decide⟩, fun fuel hfuel rest _ => ?_⟩
  rw [hwrite] at hfuel ⊢
  simp only [List.length_cons, List.length_append, List.length_nil] at hfuel
  obtain ⟨fuel, rfl⟩ := Nat.exists_eq_succ_of_ne_zero (show fuel ≠ 0 by omega)
  rw [List.cons_append, List.append_assoc, List.singleton_append, Json.value,
    skipSpace_cons (by decide), reread]
  dsimp only
  rw [if_neg (by decide), if_neg (by decide), if_neg (by decide), if_neg (by decide), if_pos rfl,
    if_neg hroom]
  cases ds with
  | nil =>
    have hjoin : Text.join "," (writeAll []) = [] := by
      rw [writeAll]
      rfl
    rw [hjoin, List.nil_append, expect_cons (by decide), if_pos rfl, rereadAll]
    rfl
  | cons d ds =>
    have hitems := elements_writeAll rest d ds h fuel (by omega)
    rw [expect_close (h d List.mem_cons_self).lead]
    dsimp only
    rw [hitems, Option.map_map, Option.map_map]
    rfl

/-- Data with finite numbers and valid texts, nested at most `n` deep. -/
abbrev Writable (n : Nat) (d : Datum) : Prop :=
  d.Plain (fun x => x.isFinite = true) (fun s => Utf8.isValid s = true) (fun _ => True) n

/-- **Data are read from their text.** -/
theorem reads_write {n : Nat} {d : Datum} (h : Writable n d) :
    ∀ depth, depth + n ≤ nestingLimit → Reads depth d (reread d) := by
  induction h with
  | null =>
    intro depth _
    simpa [reread] using reads_null depth
  | float64 hx =>
    intro depth _
    simpa [reread] using reads_float64 depth hx
  | string hs =>
    intro depth _
    simpa [reread] using reads_string depth hs
  | bool b =>
    intro depth _
    simpa [reread] using reads_bool depth b
  | atom hname =>
    intro depth hdepth
    simpa [reread] using reads_atom (by omega) hname
  | array _ _ ih =>
    intro depth hdepth
    exact reads_array (by omega) fun d hd => ih d hd (depth + 1) (by omega)

theorem read_write {d : Datum} (h : Writable nestingLimit d) : read (write d) = reread d := by
  have hvalue := (reads_write h 0 (Nat.le_of_eq (Nat.zero_add _))).value _
    (show 2 * (write d).length ≤ 2 * (write d).length + 2 by omega) [] (by simp [Ends])
  rw [List.append_nil] at hvalue
  unfold read
  rw [hvalue]
  cases reread d <;> rfl

/-! ## 3. Values -/

/-- The datum is that of the value, and what is read in its place is refused if a wide number is
    reached in the value, and else stands for the content of the value. -/
structure Returns (v : Value) (d : Datum) : Prop where
  narrow : (∀ x, v.Reaches (.number x) → ¬ Wide x) →
    ∃ d', reread d = some d' ∧ d'.toValue = .ok v.content
  wide : (∃ x, v.Reaches (.number x) ∧ Wide x) → reread d = none

/-- A value in which no number is reached. -/
theorem returns_leaf {v : Value} {d : Datum} (hreread : reread d = some d)
    (hvalue : d.toValue = .ok v.content) (h : ∀ x, ¬ v.Reaches (.number x)) : Returns v d where
  narrow _ := ⟨d, hreread, hvalue⟩
  wide hwide := by
    obtain ⟨x, hx, -⟩ := hwide
    exact absurd hx (h x)

theorem returns_number {x : Float} (h : x.isFinite = true) : Returns (.number x) (.float64 x) := by
  obtain ⟨hwide, hnarrow⟩ := readsBack_writeNumber h
  refine ⟨fun hnot => ?_, fun hsome => ?_⟩
  · rw [reread]
    exact hnarrow (hnot x (.refl _))
  · obtain ⟨y, hy, hwide'⟩ := hsome
    cases hy
    rw [reread]
    exact hwide hwide'

theorem Returns.quote {v : Value} {d : Datum} (h : Returns v d) (applied : Bool) :
    Returns (.quote v applied) d := by
  refine ⟨fun hnot => ?_, fun hsome => ?_⟩
  · rw [Value.content]
    exact h.narrow fun x hx => hnot x (.quote hx)
  · obtain ⟨x, hx, hwide⟩ := hsome
    cases hx with
    | quote hx => exact h.wide ⟨x, hx, hwide⟩

/-- The elements of a list, one after the other. -/
theorem returns_all {vs : List Value} {ds : List Datum} (h : List.Forall₂ Returns vs ds) :
    ((∀ v ∈ vs, ∀ x, v.Reaches (.number x) → ¬ Wide x) →
      ∃ ds', rereadAll ds = some ds' ∧ Datum.toValues ds' = .ok (Value.contents vs)) ∧
    ((∃ v ∈ vs, ∃ x, v.Reaches (.number x) ∧ Wide x) → rereadAll ds = none) := by
  induction h with
  | nil =>
    refine ⟨fun _ => ⟨[], by rw [rereadAll], by rw [Datum.toValues, Value.contents]⟩, fun h => ?_⟩
    obtain ⟨v, hv, _⟩ := h
    cases hv
  | @cons v d vs ds h _ ih =>
    obtain ⟨hnarrow, hwide⟩ := ih
    refine ⟨fun hnot => ?_, fun hsome => ?_⟩
    · obtain ⟨d', hd', hvalue⟩ := h.narrow (hnot v List.mem_cons_self)
      obtain ⟨ds', hds', hvalues⟩ := hnarrow fun w hw => hnot w (List.mem_cons_of_mem v hw)
      refine ⟨d' :: ds', ?_, ?_⟩
      · simp only [rereadAll, hd', hds', Option.map_some]
      · simp only [Datum.toValues, hvalue, hvalues, Value.contents]
    · rw [rereadAll]
      cases hd : reread d with
      | none => rfl
      | some d' =>
        -- the wide number is in a later element
        have hfirst : ¬ ∃ x, v.Reaches (.number x) ∧ Wide x := fun hv => by
          rw [h.wide hv] at hd
          cases hd
        have hlater : ∃ w ∈ vs, ∃ x, w.Reaches (.number x) ∧ Wide x := by
          obtain ⟨w, hw, hx⟩ := hsome
          rcases List.mem_cons.mp hw with rfl | hw
          · exact absurd hx hfirst
          · exact ⟨w, hw, hx⟩
        simp only [hwide hlater, Option.map_none]

theorem returns_list {vs : List Value} {ds : List Datum} (h : List.Forall₂ Returns vs ds)
    (loc : Loc) : Returns (.list vs loc) (.array ds) := by
  obtain ⟨hnarrow, hwide⟩ := returns_all h
  refine ⟨fun hnot => ?_, fun hsome => ?_⟩
  · obtain ⟨ds', hds', hvalues⟩ := hnarrow fun v hv x hx => hnot x (.list hv hx)
    refine ⟨.array ds', ?_, ?_⟩
    · simp only [reread, hds', Option.map_some]
    · simp only [Datum.toValue, hvalues, Value.content]
  · obtain ⟨x, hx, hwide'⟩ := hsome
    cases hx with
    | list hv hx => simp only [reread, hwide ⟨_, hv, x, hx, hwide'⟩, Option.map_none]

end Json

theorem Datum.forall₂_of_ofValues {R : Value → Datum → Prop} : ∀ {vs : List Value}
    {ds : List Datum}, (∀ v ∈ vs, ∀ d, ofValue v = .ok d → R v d) → ofValues vs = .ok ds →
    List.Forall₂ R vs ds
  | [], ds, _, hds => by
    rw [ofValues] at hds
    cases hds
    exact .nil
  | v :: vs, ds, h, hds => by
    rw [ofValues] at hds
    cases hv : ofValue v with
    | error e =>
      rw [hv] at hds
      cases hds
    | ok d =>
      cases hvs : ofValues vs with
      | error e =>
        rw [hv, hvs] at hds
        cases hds
      | ok ds' =>
        rw [hv, hvs] at hds
        cases hds
        exact .cons (h v List.mem_cons_self d hv)
          (forall₂_of_ofValues (fun w hw => h w (List.mem_cons_of_mem v hw)) hvs)

/-- Values made of unit, finite numbers, truth values, valid strings and names, lists and quotes,
    nested within the limit of the reader. -/
abbrev Value.Textual (v : Value) : Prop :=
  v.Data (fun x => x.isFinite = true) (fun s => Utf8.isValid s = true) (fun _ => True)
    Json.nestingLimit

namespace Json

theorem returns_data {n : Nat} {v : Value}
    (h : v.Data (fun x => x.isFinite = true) (fun s => Utf8.isValid s = true) (fun _ => True) n) :
    ∀ d, Datum.ofValue v = .ok d → Returns v d := by
  induction h with
  | unit =>
    rintro d ⟨rfl⟩
    exact returns_leaf (by simp [reread]) rfl fun x hx => by cases hx
  | number hx =>
    rintro d ⟨rfl⟩
    exact returns_number hx
  | string _ =>
    rintro d ⟨rfl⟩
    exact returns_leaf (by simp [reread]) rfl fun x hx => by cases hx
  | bool b =>
    rintro d ⟨rfl⟩
    exact returns_leaf (by simp [reread]) rfl fun x hx => by cases hx
  | atom loc _ =>
    rintro d ⟨rfl⟩
    exact returns_leaf (by simp [reread]) rfl fun x hx => by cases hx
  | @list n items loc _ _ ih =>
    intro d hd
    rw [Datum.ofValue] at hd
    cases hitems : Datum.ofValues items with
    | error e =>
      rw [hitems] at hd
      cases hd
    | ok ds =>
      rw [hitems] at hd
      cases hd
      exact returns_list (Datum.forall₂_of_ofValues ih hitems) loc
  | quote applied _ ih =>
    intro d hd
    exact (ih d hd).quote applied

end Json

/-- **JSON interchange.** Every value made of unit, finite numbers, truth values, valid strings and
    names, lists and quotes, nested within the limit of the reader, is written. If no wide number is
    reached in it, the text stands for its content: the value with every quote replaced by what it
    quotes and without places, all numbers the same. If one is, the text is refused. -/
theorem json_back {v : Value} (h : v.Textual) : ∃ t, v.toJson = .ok t ∧
    ((∀ x, v.Reaches (.number x) → ¬ Json.Wide x) → Value.ofJson t = .ok v.content) ∧
    ((∃ x, v.Reaches (.number x) ∧ Json.Wide x) → Value.ofJson t = .error .malformed) := by
  obtain ⟨d, hd, hplain, -⟩ := Datum.ofValue_data h
  have hread := Json.read_write hplain
  obtain ⟨hnarrow, hwide⟩ := Json.returns_data h d hd
  refine ⟨Json.write d, ?_, fun hnot => ?_, fun hsome => ?_⟩
  · rw [Value.toJson, hd]
  · obtain ⟨d', hd', hvalue⟩ := hnarrow hnot
    simp only [Value.ofJson, hread, hd', Value.ofDatum?, hvalue]
  · simp only [Value.ofJson, hread, hwide hsome, Value.ofDatum?]

/-- A list with a quoted atom, numbers of every layout, an empty list and a string with escapes. -/
def memo (x : Float) : Value :=
  .list [.quote (.atom "kept" Loc.start) false, .number (-0.0), .number 1e-7, .number 1.5,
    .number 9007199254740993, .number x, .list [] Loc.start, .string "a\n<\"é\""] Loc.start

theorem textual_memo {x : Float} (h : x.isFinite = true) : (memo x).Textual := by
  refine .list Loc.start trivial fun v hv => ?_
  simp only [List.mem_cons, List.not_mem_nil, or_false] at hv
  rcases hv with rfl | rfl | rfl | rfl | rfl | rfl | rfl | rfl
  · exact .quote false (.atom Loc.start (by decide +kernel))
  · exact .number (by decide +kernel)
  · exact .number (by decide +kernel)
  · exact .number (by decide +kernel)
  · exact .number (by decide +kernel)
  · exact .number h
  · exact .list Loc.start trivial fun _ h => by cases h
  · exact .string (by decide +kernel)

theorem reaches_memo {x y : Float} (h : (memo x).Reaches (.number y)) :
    y = -0.0 ∨ y = 1e-7 ∨ y = 1.5 ∨ y = 9007199254740993 ∨ y = x := by
  have hnumber {z : Float} (hy : (Value.number z).Reaches (.number y)) : y = z := by
    cases hy
    rfl
  cases h with
  | list hv hy =>
    simp only [List.mem_cons, List.not_mem_nil, or_false] at hv
    rcases hv with rfl | rfl | rfl | rfl | rfl | rfl | rfl | rfl
    · cases hy with
      | quote hy => cases hy
    · exact .inl (hnumber hy)
    · exact .inr (.inl (hnumber hy))
    · exact .inr (.inr (.inl (hnumber hy)))
    · exact .inr (.inr (.inr (.inl (hnumber hy))))
    · exact .inr (.inr (.inr (.inr (hnumber hy))))
    · cases hy with
      | list hv _ => cases hv
    · cases hy

theorem json_back_memo :
    (memo 1e21).Textual ∧ (∃ t, (memo 1e21).toJson = .ok t ∧
      Value.ofJson t = .ok (memo 1e21).content) ∧
    (memo 1e19).Textual ∧ (∃ t, (memo 1e19).toJson = .ok t ∧
      Value.ofJson t = .error .malformed) := by
  have hlarge : (memo 1e21).Textual := textual_memo (by decide +kernel)
  have hwide : (memo 1e19).Textual := textual_memo (by decide +kernel)
  obtain ⟨t, ht, hback, -⟩ := json_back hlarge
  obtain ⟨t', ht', -, hrefused⟩ := json_back hwide
  refine ⟨hlarge, ⟨t, ht, hback fun y hy => ?_⟩, hwide, ⟨t', ht', hrefused ⟨1e19, ?_, ?_⟩⟩⟩
  · rcases reaches_memo hy with rfl | rfl | rfl | rfl | rfl <;> decide +kernel
  · exact .list (by simp) (.refl _)
  · decide +kernel

/-- A finite number that is written and not read back. -/
theorem wide_not_back : (Value.number 1e19).Textual ∧
    (Value.number 1e19).toJson = .ok "10000000000000000000" ∧
    Value.ofJson "10000000000000000000" = .error .malformed := by
  have hwrite : Json.write (.float64 1e19) = Text.ofString "10000000000000000000" := by
    rw [Json.write]
    decide +kernel
  have hread : Json.read (Text.ofString "10000000000000000000") = none := by
    rw [← Option.isNone_iff_eq_none]
    decide +kernel
  refine ⟨.number (by decide +kernel), ?_, ?_⟩
  · rw [Value.toJson, Datum.ofValue]
    exact congrArg Except.ok hwrite
  · rw [Value.ofJson, hread]
    rfl

end SmallLisp
