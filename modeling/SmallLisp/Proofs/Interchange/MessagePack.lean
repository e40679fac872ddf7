import Mathlib
import SmallLisp.Proofs.Eval.Calls
import SmallLisp.Proofs.Interchange.Binary
import SmallLisp.Proofs.Interchange.Datum

/-!
# MessagePack data are read back

What is written is read back, whatever follows it: strings and arrays by the header that has their
length (`stringHeader_cases`, `arrayHeader_cases`), floats with all their bits, and data by
induction over their structure (`value_write`). Together with the interchange forms of values this
gives the round trip of values, also through hexadecimal text in the language (`messagePack_back`).
-/

namespace SmallLisp

open EvalM Evaluator

namespace MessagePack

/-! ## 1. Headers -/

/-- A string has a header with its length in the first byte, or in the bytes after it. -/
theorem stringHeader_cases {n : Nat} (h : n < 2 ^ 32) :
    (∃ b, stringHeader n = [b] ∧ lead b = .string n) ∨
    ∃ b width, stringHeader n = b :: Binary.bigEndian width n ∧ lead b = .longString width ∧
      n < 256 ^ width := by
  unfold stringHeader
  split_ifs with h5 h8 h16
  · refine .inl ⟨_, rfl, ?_⟩
    have hbyte : (UInt8.ofNat (0xA0 + n)).toNat = 0xA0 + n :=
      UInt8.toNat_ofNat_of_lt' (show 0xA0 + n < 256 by omega)
    unfold lead
    dsimp only
    rw [hbyte, if_neg (by omega), if_neg (by omega), if_neg (by omega), if_pos (by omega),
      Nat.add_sub_cancel_left]
  · exact .inr ⟨0xD9, 1, rfl, rfl, h8⟩
  · exact .inr ⟨0xDA, 2, rfl, rfl, h16⟩
  · exact .inr ⟨0xDB, 4, rfl, rfl, h⟩

/-- The same for arrays. -/
theorem arrayHeader_cases {n : Nat} (h : n < 2 ^ 32) :
    (∃ b, arrayHeader n = [b] ∧ lead b = .array n) ∨
    ∃ b width, arrayHeader n = b :: Binary.bigEndian width n ∧ lead b = .longArray width ∧
      n < 256 ^ width := by
  unfold arrayHeader
  split_ifs with h4 h16
  · refine .inl ⟨_, rfl, ?_⟩
    have hbyte : (UInt8.ofNat (0x90 + n)).toNat = 0x90 + n :=
      UInt8.toNat_ofNat_of_lt' (show 0x90 + n < 256 by omega)
    unfold lead
    dsimp only
    rw [hbyte, if_neg (by omega), if_neg (by omega), if_pos (by omega), Nat.add_sub_cancel_left]
  · exact .inr ⟨0xDC, 2, rfl, rfl, h16⟩
  · exact .inr ⟨0xDD, 4, rfl, rfl, h⟩

/-! ## 2. Strings and floats -/

theorem value_writeString {s : Text} (h : s.length < 2 ^ 32) (fuel depth : Nat) (rest : Text) :
    value (fuel + 1) depth (writeString s ++ rest) = some (.string s, rest) := by
  unfold writeString
  rcases stringHeader_cases h with ⟨b, hheader, hlead⟩ | ⟨b, width, hheader, hlead, hfits⟩
  · rw [hheader]
    simp [value, hlead, Binary.take?_append]
  · rw [hheader]
    simp [value, hlead, Binary.number?_bigEndian hfits, Binary.take?_append]

theorem key?_writeString {s : Text} (h : s.length < 2 ^ 32) (rest : Text) :
    key? (writeString s ++ rest) = some (s, rest) := by
  unfold writeString
  rcases stringHeader_cases h with ⟨b, hheader, hlead⟩ | ⟨b, width, hheader, hlead, hfits⟩
  · rw [hheader]
    simp [key?, hlead, Binary.take?_append]
  · rw [hheader]
    simp [key?, hlead, Binary.number?_bigEndian hfits, Binary.take?_append]

/-- A float is read back with all its bits. -/
theorem value_writeFloat (x : Float) (fuel depth : Nat) (rest : Text) :
    value (fuel + 1) depth (writeFloat x ++ rest) = some (.float64 x, rest) := by
  have hfits : x.toBits.toNat < 256 ^ 8 := x.toBits.toNat_lt
  have hlead : lead 0xCB = .number 8 fun n => .float64 (doubleOfBits n) := rfl
  have hbits : doubleOfBits x.toBits.toNat = x := by
    unfold doubleOfBits
    rw [UInt64.ofNat_toNat, Float.ofBits_toBits]
  simp [value, writeFloat, hlead, Binary.number?_bigEndian hfits, hbits]

/-! ## 3. Data -/

/-- The datum is read back from its bytes inside `depth` arrays and maps, if the fuel is twice their
    number. -/
structure ReadsBack (depth : Nat) (d : Datum) : Prop where
  length_pos : 0 < (write d).length
  value : ∀ {fuel : Nat}, 2 * (write d).length ≤ fuel → ∀ rest,
    value fuel depth (write d ++ rest) = some (d, rest)

/-- A datum with nothing inside is read back with any fuel. -/
theorem readsBack_leaf {depth : Nat} {d : Datum} (hpos : 0 < (write d).length)
    (h : ∀ fuel rest, MessagePack.value (fuel + 1) depth (write d ++ rest) = some (d, rest)) :
    ReadsBack depth d where
  length_pos := hpos
  value {fuel} hfuel rest := by
    obtain ⟨fuel, rfl⟩ := Nat.exists_eq_succ_of_ne_zero (show fuel ≠ 0 by omega)
    exact h fuel rest

theorem values_writeAll {depth : Nat} : ∀ {ds : List Datum}, (∀ d ∈ ds, ReadsBack depth d) →
    ∀ {fuel : Nat}, 2 * (writeAll ds).length + 1 ≤ fuel → ∀ rest,
      values fuel depth ds.length (writeAll ds ++ rest) = some (ds, rest)
  | [], _, fuel + 1, _, rest => by simp only [List.length_nil, values, writeAll, List.nil_append]
  | d :: ds, h, fuel + 1, hfuel, rest => by
    obtain ⟨hpos, hvalue⟩ := h d List.mem_cons_self
    have hlength : (writeAll (d :: ds)).length = (write d).length + (writeAll ds).length :=
      List.length_append
    have hrest := values_writeAll (fun d' hd' => h d' (List.mem_cons_of_mem d hd'))
      (show 2 * (writeAll ds).length + 1 ≤ fuel by omega) rest
    have hfirst := hvalue (show 2 * (write d).length ≤ fuel by omega) (writeAll ds ++ rest)
    simp only [List.length_cons, values, writeAll, List.append_assoc, hfirst, hrest,
      Option.map_some]

theorem readsBack_array {depth : Nat} {ds : List Datum} (hlength : ds.length < 2 ^ 32)
    (hdepth : depth < nestingLimit) (h : ∀ d ∈ ds, ReadsBack (depth + 1) d) :
    ReadsBack depth (.array ds) := by
  have hroom : ¬ nestingLimit ≤ depth := by omega
  rcases arrayHeader_cases hlength with ⟨b, hheader, hlead⟩ | ⟨b, width, hheader, hlead, hfits⟩
  · have hwrite : write (.array ds) = b :: writeAll ds := by
      rw [write, hheader, List.singleton_append]
    refine ⟨by simp [hwrite], fun {fuel} hfuel rest => ?_⟩
    rw [hwrite, List.length_cons] at hfuel
    obtain ⟨fuel, rfl⟩ := Nat.exists_eq_succ_of_ne_zero (show fuel ≠ 0 by omega)
    have hitems := values_writeAll h (show 2 * (writeAll ds).length + 1 ≤ fuel by omega) rest
    simp [hwrite, MessagePack.value, hlead, hroom, hitems]
  · have hwrite : write (.array ds) = b :: (Binary.bigEndian width ds.length ++ writeAll ds) := by
      rw [write, hheader, List.cons_append]
    refine ⟨by simp [hwrite], fun {fuel} hfuel rest => ?_⟩
    rw [hwrite, List.length_cons, List.length_append] at hfuel
    obtain ⟨fuel, rfl⟩ := Nat.exists_eq_succ_of_ne_zero (show fuel ≠ 0 by omega)
    have hitems := values_writeAll h (show 2 * (writeAll ds).length + 1 ≤ fuel by omega) rest
    simp [hwrite, MessagePack.value, hlead, hroom, Binary.number?_bigEndian hfits, hitems]

/-- An atom is the map with the single key for atoms. -/
theorem readsBack_atom {depth : Nat} {name : Text} (hname : name.length < 2 ^ 32)
    (hdepth : depth < nestingLimit) :
    ReadsBack depth (.map [(Datum.atomKey, .string name)]) := by
  have hroom : ¬ nestingLimit ≤ depth := by omega
  have hwrite : write (.map [(Datum.atomKey, .string name)]) =
      0x81 :: (writeString Datum.atomKey ++ writeString name) := by
    simp [write, writeEntries, mapHeader]
  have hlead : lead 0x81 = .map 1 := rfl
  refine ⟨by simp [hwrite], fun {fuel} hfuel rest => ?_⟩
  have hlong : 3 ≤ fuel := by
    have hkey : (writeString Datum.atomKey).length = 5 := rfl
    rw [hwrite, List.length_cons, List.length_append, hkey] at hfuel
    omega
  obtain ⟨fuel, rfl⟩ := Nat.exists_eq_add_of_le' hlong
  have hkey (t : Text) := key?_writeString (show Datum.atomKey.length < 2 ^ 32 by decide) t
  simp [hwrite, MessagePack.value, hlead, hroom, entries, Datum.withEntry, hkey,
    value_writeString hname fuel (depth + 1)]

/-- Data of which texts and arrays have lengths of 32 bits, nested at most `n` deep. -/
abbrev Writable (n : Nat) (d : Datum) : Prop :=
  d.Plain (fun _ => True) (fun s => s.length < 2 ^ 32) (fun k => k < 2 ^ 32) n

/-- **Data are read back from their bytes.** -/
theorem value_write {n : Nat} {d : Datum} (h : Writable n d) :
    ∀ depth, depth + n ≤ nestingLimit → ReadsBack depth d := by
  induction h with
  | null =>
    intro depth _
    have hlead : lead 0xC0 = .datum .null := rfl
    exact readsBack_leaf (by decide) fun fuel rest => by simp [write, value, hlead]
  | @float64 _ x _ =>
    intro depth _
    exact readsBack_leaf (by simp [write, writeFloat]) fun fuel rest =>
      value_writeFloat x fuel depth rest
  | @string _ s hs =>
    intro depth _
    refine readsBack_leaf ?_ fun fuel rest => value_writeString hs fuel depth rest
    rcases stringHeader_cases hs with ⟨b, hheader, -⟩ | ⟨b, width, hheader, -, -⟩ <;>
      simp [write, writeString, hheader]
  | bool b =>
    intro depth _
    have hfalse : lead 0xC2 = .datum (.bool false) := rfl
    have htrue : lead 0xC3 = .datum (.bool true) := rfl
    cases b <;> exact readsBack_leaf (by decide) fun fuel rest => by
      simp [write, writeBool, value, hfalse, htrue]
  | atom hname =>
    intro depth hdepth
    exact readsBack_atom hname (by omega)
  | array hlength _ ih =>
    intro depth hdepth
    exact readsBack_array hlength (by omega) fun d hd => ih d hd (depth + 1) (by omega)

theorem read_write {d : Datum} (h : Writable nestingLimit d) : read (write d) = some d := by
  have hvalue := (value_write h 0 (Nat.le_of_eq (Nat.zero_add _))).value
    (show 2 * (write d).length ≤ 2 * (write d).length + 2 by omega) []
  rw [List.append_nil] at hvalue
  unfold read
  rw [hvalue, Option.map_some]

end MessagePack

/-! ## 4. Hexadecimal text -/

namespace Hex

theorem value?_digit : ∀ n < 16, value? (digit n) = some n := by decide

/-- Hexadecimal text is read back. -/
theorem decode_encode : ∀ t : Text, decode (encode t) = .ok t
  | [] => rfl
  | b :: t => by
    have hhigh : b.toNat / 16 < 16 := Nat.div_lt_of_lt_mul b.toNat_lt
    have hlow : b.toNat % 16 < 16 := Nat.mod_lt _ (by decide)
    have hencode : encode (b :: t) = digit (b.toNat / 16) :: digit (b.toNat % 16) :: encode t :=
      rfl
    rw [hencode, decode, value?_digit _ hhigh, value?_digit _ hlow, decode_encode t]
    simp [Nat.div_add_mod]

end Hex

/-! ## 5. Values -/

/-- Values that can be written in MessagePack and read back: texts and lists have lengths of 32
    bits, and the nesting is within the limit of the reader. -/
abbrev Value.Packable : Value → Prop :=
  Value.Data (fun _ => True) (fun s => s.length < 2 ^ 32) (fun k => k < 2 ^ 32)
    MessagePack.nestingLimit

/-- The bytes of a value stand for its content. -/
theorem Value.Packable.exists_bytes {v : Value} (h : v.Packable) :
    ∃ bytes, v.toMessagePack = .ok bytes ∧ Value.ofMessagePack bytes = .ok v.content := by
  obtain ⟨d, hd, hplain, hvalue⟩ := Datum.ofValue_data h
  refine ⟨MessagePack.write d, ?_, ?_⟩
  · unfold Value.toMessagePack
    rw [hd]
  · unfold Value.ofMessagePack Value.ofDatum?
    rw [MessagePack.read_write hplain]
    dsimp only
    rw [hvalue]

/-- What `msgpack` and `unmsgpack` are bound to in the prelude. -/
def Interchange.native (i : Interchange) : Value := .native (.primitive (.interchange i))

section Functions

variable {ev : Evaluator} {env : FrameId} {form v : Value} {s t : Session}

theorem interchange_msgpack {bytes : Text} (heval : ev.eval env form s = .ok v t)
    (hbytes : v.toMessagePack = .ok bytes) (op : Text) :
    ev.interchange env .msgpack op [form] s = .ok (.string (Hex.encode bytes)) t := by
  unfold interchange
  rw [show ev.oneArg env op [form] = ev.eval env form from rfl, bind_of_ok heval]
  dsimp only
  rw [hbytes]
  rfl

/-- The log of a verbose session is all that reading changes. -/
theorem valueOf_ok {d? : Option Datum} (h : Value.ofDatum? d? = .ok v) (s : Session) :
    ∃ t, valueOf d? s = .ok v t ∧ t.store = s.store := by
  let logged : Session := ((d?.map Datum.visited).getD []).foldl
    (fun s (t : String) => s.log ("GoToValue: decoded type is " ++ t)) s
  have hlogged : logged.store = s.store := by
    apply Session.store_foldl
    exact fun _ _ => rfl
  by_cases hverbose : s.verbose = true
  · refine ⟨logged, ?_, hlogged⟩
    show (if s.verbose = true then _ else _ : EvalM Value) s = _
    rw [if_pos hverbose, h]
    rfl
  · refine ⟨s, ?_, rfl⟩
    show (if s.verbose = true then _ else _ : EvalM Value) s = _
    rw [if_neg hverbose, h]
    rfl

theorem interchange_unmsgpack {bytes : Text}
    (heval : ev.eval env form s = .ok (.string (Hex.encode bytes)) t)
    (hbytes : Value.ofMessagePack bytes = .ok v) (op : Text) :
    ∃ u, ev.interchange env .unmsgpack op [form] s = .ok v u ∧ u.store = t.store := by
  obtain ⟨u, hu, hstore⟩ := valueOf_ok hbytes t
  refine ⟨u, ?_, hstore⟩
  unfold interchange
  rw [show ev.oneArg env op [form] = ev.eval env form from rfl, bind_of_ok heval]
  dsimp only
  rw [Hex.decode_encode]
  exact hu

end Functions

/-- The form `(op form)`. -/
def Value.call (op : String) (form : Value) (l loc : Loc) : Value :=
  .list [.atom op l, form] loc

/-- In a session in which `msgpack` means what it does in the prelude, it gives the bytes of a value
    as hexadecimal text. -/
theorem eval_msgpack {s : Session} {env : FrameId} {v : Value} {bytes : Text}
    (hbytes : v.toMessagePack = .ok bytes)
    (hname : s.store.get? env "msgpack" = some (Interchange.native .msgpack)) (hroom : s.HasRoom)
    (n : Nat) (applied : Bool) (l loc : Loc) :
    ∃ t, (ofFuel (n + 2)).eval env (.call "msgpack" (.quote v applied) l loc) s =
      .ok (.string (Hex.encode bytes)) t ∧ t.store = s.store := by
  refine eval_native hname hroom (fun s' _ => ⟨s', ?_, rfl⟩) l loc
  have hquote : (ofFuel (n + 1)).eval env (.quote v applied) s' = .ok v s' := rfl
  exact interchange_msgpack hquote hbytes _

/-- `unmsgpack` gives the content of a value back from what `msgpack` makes of it. -/
theorem eval_unmsgpack {s : Session} {env : FrameId} {v w : Value} {bytes : Text}
    (hbytes : v.toMessagePack = .ok bytes) (hback : Value.ofMessagePack bytes = .ok w)
    (hpack : s.store.get? env "msgpack" = some (Interchange.native .msgpack))
    (hunpack : s.store.get? env "unmsgpack" = some (Interchange.native .unmsgpack))
    (hroom : s.limit = 0 ∨ s.depth + 1 < s.limit) (n : Nat) (applied : Bool)
    (l loc l' loc' : Loc) :
    ∃ t, (ofFuel (n + 3)).eval env
      (.call "unmsgpack" (.call "msgpack" (.quote v applied) l loc) l' loc') s = .ok w t ∧
        t.store = s.store := by
  have hroom' : s.HasRoom := by
    unfold Session.HasRoom
    omega
  refine eval_native hunpack hroom' (fun s' hs' => ?_) l' loc'
  have hname : s'.store.get? env "msgpack" = some (Interchange.native .msgpack) := by
    rw [hs'.store, hpack]
  have hinner : s'.HasRoom := by
    unfold Session.HasRoom
    rw [hs'.limit, hs'.depth]
    exact hroom
  obtain ⟨t, ht, hstore⟩ := eval_msgpack hbytes hname hinner n applied l loc
  obtain ⟨u, hu, hstore'⟩ := interchange_unmsgpack ht hback "unmsgpack"
  exact ⟨u, hu, hstore'.trans hstore⟩

/-- **MessagePack interchange.** Every value made of unit, numbers, strings, truth values, atoms,
    lists and quotes, with texts and lists of lengths below `2 ^ 32` and nested within the limit of
    the reader, is written, and its bytes stand for its content: the value with every quote replaced
    by what it quotes and without places, all numbers the same. In the language `msgpack` gives
    these bytes as hexadecimal text, and `unmsgpack` the content from that.

    A value cannot be written exactly if it is code or code is reached in it through lists and
    quotes. -/
theorem messagePack_back :
    (∀ v : Value, v.Packable → ∃ bytes,
      v.toMessagePack = .ok bytes ∧ Value.ofMessagePack bytes = .ok v.content ∧
      ∀ (s : Session) (env : FrameId) (applied : Bool) (l loc l' loc' : Loc),
        s.store.get? env "msgpack" = some (Interchange.native .msgpack) →
        s.store.get? env "unmsgpack" = some (Interchange.native .unmsgpack) →
        (s.limit = 0 ∨ s.depth + 1 < s.limit) →
        (∃ t, s.Answers env (.call "msgpack" (.quote v applied) l loc)
          (.ok (.string (Hex.encode bytes)) t)) ∧
        (∃ t, s.Answers env
          (.call "unmsgpack" (.call "msgpack" (.quote v applied) l loc) l' loc')
          (.ok v.content t))) ∧
    (∀ v : Value,
      ((∃ loc what, v.toMessagePack = .error ⟨loc, .notSerializable what⟩) ↔
        ∃ w, v.Reaches w ∧ w.isCode = true) ∧
      ((∃ bytes, v.toMessagePack = .ok bytes) ↔ ¬ ∃ w, v.Reaches w ∧ w.isCode = true)) := by
  refine ⟨fun v hv => ?_, fun v => ?_⟩
  · obtain ⟨bytes, hbytes, hback⟩ := hv.exists_bytes
    refine ⟨bytes, hbytes, hback, fun s env applied l loc l' loc' hpack hunpack hroom => ?_⟩
    have hroom' : s.HasRoom := by
      unfold Session.HasRoom
      omega
    obtain ⟨t, ht, -⟩ := eval_msgpack hbytes hpack hroom' 0 applied l loc
    obtain ⟨u, hu, -⟩ := eval_unmsgpack hbytes hback hpack hunpack hroom 0 applied l loc l' loc'
    exact ⟨⟨t, answers_of_fuel ht trivial⟩, ⟨u, answers_of_fuel hu trivial⟩⟩
  · have hcases := Datum.ofValue_cases v
    unfold Value.toMessagePack
    generalize Datum.ofValue v = r at hcases ⊢
    cases hcases with
    | ok d hd =>
      have hnone : ¬ ∃ w, v.Reaches w ∧ w.isCode = true := by
        rintro ⟨w, hw, hcode⟩
        rw [hd w hw] at hcode
        cases hcode
      simp [hnone]
    | @error loc what w hw hcode =>
      have hsome : ∃ w, v.Reaches w ∧ w.isCode = true := ⟨w, hw, hcode⟩
      simp [hsome]

/-- A list with a quoted atom, minus zero, an empty list and a string of 300 bytes. -/
def parcel : Value :=
  .list [.quote (.atom "kept" Loc.start) false, .number (-0.0), .list [] Loc.start,
    .string (List.replicate 300 0x61)] Loc.start

theorem messagePack_back_parcel : parcel.Packable ∧ ∃ bytes,
    parcel.toMessagePack = .ok bytes ∧ Value.ofMessagePack bytes = .ok parcel.content := by
  have hparcel : parcel.Packable := by
    refine .list Loc.start (by decide) fun v hv => ?_
    simp only [List.mem_cons, List.not_mem_nil, or_false] at hv
    rcases hv with rfl | rfl | rfl | rfl
    · exact .quote false (.atom Loc.start (by decide))
    · exact .number trivial
    · exact .list Loc.start (by decide) fun _ h => (by cases h)
    · exact .string (by rw [List.length_replicate]; decide)
  obtain ⟨bytes, hbytes, hback, -⟩ := messagePack_back.1 parcel hparcel
  exact ⟨hparcel, bytes, hbytes, hback⟩

end SmallLisp
