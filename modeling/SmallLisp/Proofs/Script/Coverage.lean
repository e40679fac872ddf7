import Mathlib
import SmallLisp.Proofs.Script.Wire

/-!
# What the hash of a script covers

A script is read from entries in any order, and an entry `sum` has to hold the hash of everything
before it. This file says which bytes are accepted, and what the hashes among them vouch for.

* `Local`: a reader takes what it reads from the front, and does not look at what follows. Every
  reader of the format is local.
* `Script.decode_eq_ok_iff`: bytes are accepted exactly if they are laid out as a header and entries
  (`Layout`), every hash among the entries is that of the entries before it, and there is one.
* `accepted_coverage`: an entry is vouched for exactly if a hash stands after it, and what stands
  after the last hash can be exchanged at will.
-/

namespace SmallLisp

open MessagePack (writeString writeNat)

/-! ## 1. Local readers -/

theorem Binary.eq_append_of_take? {n : Nat} {t front rest : Text}
    (h : take? n t = some (front, rest)) : t = front ++ rest ∧ front.length = n := by
  unfold take? at h
  dsimp only at h
  split at h
  · rename_i hlength
    cases h
    exact ⟨(List.take_append_drop n t).symm, hlength⟩
  · cases h

theorem Binary.take?_succ (n : Nat) (b : UInt8) (t : Text) :
    take? (n + 1) (b :: t) = (take? n t).map fun p => (b :: p.1, p.2) := by
  unfold take?
  dsimp only
  rw [List.take_succ_cons, List.length_cons, List.drop_succ_cons]
  by_cases h : (t.take n).length = n
  · rw [if_pos (by rw [h]), if_pos h, Option.map_some]
  · rw [if_neg (fun h' => h (Nat.succ.inj h')), if_neg h, Option.map_none]

theorem Binary.number?_local {width n : Nat} {t rest : Text}
    (h : number? width t = some (n, rest)) : ∃ front, t = front ++ rest ∧ front.length = width ∧
      ∀ rest', number? width (front ++ rest') = some (n, rest') := by
  unfold number? at h
  obtain ⟨p, hp, hn⟩ := Option.map_eq_some_iff.mp h
  cases hn
  obtain ⟨ht, hlength⟩ := eq_append_of_take? hp
  refine ⟨p.1, ht, hlength, fun rest' => ?_⟩
  rw [number?, take?_append hlength]
  rfl

namespace Wire

variable {α β : Type}

/-- The reader takes what it reads from the front, and would read the same before anything else. -/
def Local (read : Parts α) : Prop :=
  ∀ ⦃t : Text⦄ ⦃a : α⦄ ⦃rest : Text⦄, read t = .ok (a, rest) →
    ∃ front, t = front ++ rest ∧ Reads read front a

theorem local_bytes (n : Nat) : Local (bytes n) := by
  intro t a rest h
  unfold bytes at h
  split at h
  · rename_i r hr
    cases h
    obtain ⟨ht, hlength⟩ := Binary.eq_append_of_take? hr
    subst hlength
    exact ⟨a, ht, reads_bytes a⟩
  · cases h

theorem local_number (width : Nat) : Local (number width) := by
  intro t n rest h
  unfold number at h
  split at h
  · rename_i r hr
    cases h
    obtain ⟨front, ht, -, hfront⟩ := Binary.number?_local hr
    refine ⟨front, ht, fun rest' => ?_⟩
    rw [number, hfront]
  · cases h

theorem local_refuse (e : WireFault) : Local (fun _ => .error e : Parts α) :=
  fun _ _ _ h => nomatch h

theorem local_pure (a : α) : Local (fun t => .ok (a, t) : Parts α) := by
  intro t b rest h
  cases h
  exact ⟨[], rfl, fun _ => rfl⟩

/-- One reader after another. -/
def Parts.andThen (first : Parts α) (next : α → Parts β) : Parts β :=
  fun t => (first t).bind fun p => next p.1 p.2

theorem Local.andThen {first : Parts α} {next : α → Parts β} (hfirst : Local first)
    (hnext : ∀ a, Local (next a)) : Local (first.andThen next) := by
  intro t b rest h
  unfold Parts.andThen at h
  cases hread : first t with
  | error e =>
    rw [hread] at h
    cases h
  | ok p =>
    obtain ⟨a, middle⟩ := p
    rw [hread] at h
    obtain ⟨front, rfl, hfront⟩ := hfirst hread
    obtain ⟨more, rfl, hmore⟩ := hnext a h
    refine ⟨front ++ more, (List.append_assoc ..).symm, fun rest' => ?_⟩
    rw [Parts.andThen, List.append_assoc, hfront]
    exact hmore rest'

/-- A reader that goes on by the first byte is local if it is after each first byte. -/
theorem Local.ofLead {read : Parts α} (hnil : ∀ r, read [] ≠ .ok r)
    (hlead : ∀ b, ∃ next : Parts α, Local next ∧ ∀ t, read (b :: t) = next t) : Local read := by
  intro t a rest h
  cases t with
  | nil => exact absurd h (hnil _)
  | cons b t =>
    obtain ⟨next, hnext, hread⟩ := hlead b
    rw [hread] at h
    obtain ⟨front, rfl, hfront⟩ := hnext h
    exact ⟨b :: front, rfl, hfront.lead hread⟩

/-- A reader that never succeeds is local. -/
theorem Local.ofNever {read : Parts α} (h : ∀ t r, read t ≠ .ok r) : Local read :=
  fun t _ _ ht => absurd ht (h t _)

/-- A local reader is local behind a first byte. -/
theorem Local.behind {read : Parts α} (h : Local read) (hnil : ∀ r, read [] ≠ .ok r) (b : UInt8) :
    Local fun t => read (b :: t) := by
  intro t a rest ht
  obtain ⟨front, hfront, hreads⟩ := h ht
  cases front with
  | nil => exact absurd (hreads []) (hnil _)
  | cons b' front =>
    obtain ⟨rfl, rfl⟩ := List.cons.inj hfront
    exact ⟨front, rfl, hreads⟩

theorem Local.map {read : Parts α} (h : Local read) (f : α → β) : Local (read.map f) := by
  have hthen : read.map f = read.andThen fun a t => .ok (f a, t) := by
    funext t
    unfold Parts.map Parts.andThen
    cases read t <;> rfl
  rw [hthen]
  exact h.andThen fun a => local_pure (f a)

theorem local_badLead (b : UInt8) : Local (fun _ => badLead b : Parts α) := local_refuse _

/-! ## 2. Headers, strings and numbers -/

theorem local_mapHeader : Local mapHeader := by
  refine .ofLead (fun _ => nofun) fun b => ?_
  by_cases hsmall : 0x80 ≤ b ∧ b < 0x90
  · exact ⟨_, local_pure (b.toNat - 0x80), fun t => by rw [mapHeader, if_pos hsmall]⟩
  by_cases hDE : b = 0xDE
  · exact ⟨_, local_number 2, fun t => by rw [mapHeader, if_neg hsmall, if_pos hDE]⟩
  by_cases hDF : b = 0xDF
  · exact ⟨_, local_number 4, fun t => by rw [mapHeader, if_neg hsmall, if_neg hDE, if_pos hDF]⟩
  exact ⟨_, local_badLead b, fun t => by
    rw [mapHeader, if_neg hsmall, if_neg hDE, if_neg hDF]⟩

theorem local_arrayHeader : Local arrayHeader := by
  refine .ofLead (fun _ => nofun) fun b => ?_
  by_cases hsmall : 0x90 ≤ b ∧ b < 0xA0
  · exact ⟨_, local_pure (b.toNat - 0x90), fun t => by rw [arrayHeader, if_pos hsmall]⟩
  by_cases hDC : b = 0xDC
  · exact ⟨_, local_number 2, fun t => by rw [arrayHeader, if_neg hsmall, if_pos hDC]⟩
  by_cases hDD : b = 0xDD
  · exact ⟨_, local_number 4, fun t => by rw [arrayHeader, if_neg hsmall, if_neg hDC, if_pos hDD]⟩
  exact ⟨_, local_badLead b, fun t => by
    rw [arrayHeader, if_neg hsmall, if_neg hDC, if_neg hDD]⟩

theorem local_counted (width : Nat) : Local (counted width) := by
  have hthen : counted width = (number width).andThen bytes := by
    funext t
    unfold counted Parts.andThen
    cases number width t <;> rfl
  rw [hthen]
  exact (local_number width).andThen local_bytes

theorem local_string : Local string := by
  refine .ofLead (fun _ => nofun) fun b => ?_
  by_cases hsmall : 0xA0 ≤ b ∧ b < 0xC0
  · exact ⟨_, local_bytes (b.toNat - 0xA0), fun t => by rw [string, if_pos hsmall]⟩
  by_cases hD9 : b = 0xD9
  · exact ⟨_, local_counted 1, fun t => by rw [string, if_neg hsmall, if_pos hD9]⟩
  by_cases hDA : b = 0xDA
  · exact ⟨_, local_counted 2, fun t => by rw [string, if_neg hsmall, if_neg hD9, if_pos hDA]⟩
  by_cases hDB : b = 0xDB
  · exact ⟨_, local_counted 4, fun t => by
      rw [string, if_neg hsmall, if_neg hD9, if_neg hDA, if_pos hDB]⟩
  exact ⟨_, local_refuse _, fun t => by
    rw [string, if_neg hsmall, if_neg hD9, if_neg hDA, if_neg hDB]; rfl⟩

theorem local_key : Local key := by
  refine .ofLead (fun _ => nofun) fun b => ?_
  by_cases hC4 : b = 0xC4
  · subst hC4
    exact ⟨_, local_counted 1, fun t => rfl⟩
  by_cases hC5 : b = 0xC5
  · subst hC5
    exact ⟨_, local_counted 2, fun t => rfl⟩
  by_cases hC6 : b = 0xC6
  · subst hC6
    exact ⟨_, local_counted 4, fun t => rfl⟩
  refine ⟨_, local_string.behind (fun _ => nofun) b, fun t => ?_⟩
  unfold key
  split <;> simp_all

theorem float_eq {b : UInt8} (h : b ≠ 0xCA) (t : Text) : float (b :: t) =
    ((Binary.take? 9 (b :: t)).elim (refuse .short) fun p => p.1.head?.elim (refuse .short) fun b =>
      if b = 0xCB then .ok (MessagePack.doubleOfBits (Binary.ofBigEndian p.1.tail), p.2)
      else badLead b) := by
  unfold float
  split
  · rename_i heq
    exact absurd (List.cons.inj heq).1 h
  · cases Binary.take? 9 (b :: t) with
    | none => rfl
    | some p =>
      obtain ⟨front, rest⟩ := p
      cases front <;> rfl

theorem local_float : Local float := by
  refine .ofLead (fun r h => by cases h) fun b => ?_
  by_cases hCA : b = 0xCA
  · subst hCA
    refine ⟨_, (local_number 4).map MessagePack.singleOfBits, fun t => ?_⟩
    rw [float, Parts.map]
    cases number 4 t <;> rfl
  by_cases hCB : b = 0xCB
  · subst hCB
    refine ⟨_, (local_number 8).map MessagePack.doubleOfBits, fun t => ?_⟩
    rw [float_eq (by decide), Binary.take?_succ, Parts.map, number, Binary.number?]
    cases Binary.take? 8 t <;> rfl
  refine ⟨_, .ofNever ?_, fun t => rfl⟩
  intro t r
  rw [float_eq hCA, Binary.take?_succ]
  cases Binary.take? 8 t with
  | none =>
    intro h
    cases h
  | some p =>
    show (if b = 0xCB then _ else badLead b) ≠ _
    rw [if_neg hCB]
    intro h
    cases h

theorem local_bool : Local bool := by
  refine .ofLead (fun _ => nofun) fun b => ?_
  by_cases hfalse : b = 0xC2
  · exact ⟨_, local_pure false, fun t => by rw [bool, if_pos hfalse]⟩
  by_cases htrue : b = 0xC3
  · exact ⟨_, local_pure true, fun t => by rw [bool, if_neg hfalse, if_pos htrue]⟩
  exact ⟨_, local_badLead b, fun t => by rw [bool, if_neg hfalse, if_neg htrue]⟩

theorem local_integer : Local integer := by
  refine .ofLead (fun _ => nofun) fun b => ?_
  by_cases hsmall : b < 0x80
  · exact ⟨_, local_pure (b.toNat : Int), fun t => by simp only [integer, if_pos hsmall]⟩
  by_cases hneg : 0xE0 ≤ b
  · exact ⟨_, local_pure (Binary.toSigned 8 b.toNat), fun t => by
      simp only [integer, if_neg hsmall, if_pos hneg]⟩
  by_cases hunsigned : ∃ width, (b, width) ∈ unsignedLeads
  · obtain ⟨width, hb⟩ := hunsigned
    exact ⟨_, (local_number width).map Int.ofNat, integer_unsigned hb⟩
  by_cases hsigned : ∃ width, (b, width) ∈ signedLeads
  · obtain ⟨width, hb⟩ := hsigned
    exact ⟨_, (local_number width).map _, integer_signed hb⟩
  refine ⟨_, local_badLead b, fun t => ?_⟩
  simp only [unsignedLeads, signedLeads, List.mem_cons, Prod.mk.injEq, List.not_mem_nil, or_false,
    exists_or, exists_and_left, exists_eq, and_true, not_or] at hunsigned hsigned
  simp [integer, hsmall, hneg, hunsigned, hsigned]

theorem local_integerIn (low high : Int) : Local (integerIn low high) := by
  have hthen : integerIn low high = integer.andThen fun n t =>
      if low ≤ n ∧ n < high then .ok (n, t) else refuse .outOfRange := by
    funext t
    unfold integerIn Parts.andThen
    cases integer t <;> rfl
  rw [hthen]
  refine local_integer.andThen fun n => ?_
  by_cases hn : low ≤ n ∧ n < high
  · simp only [if_pos hn]
    exact local_pure n
  · simp only [if_neg hn]
    exact local_refuse _

/-! ## 3. Constants, instructions and hashes -/

theorem local_many {read : Parts α} (h : Local read) (n : Nat) : Local (many read n) := by
  induction n with
  | zero => exact local_pure []
  | succ n ih =>
    have hthen : many read (n + 1) = read.andThen fun x => (many read n).map (x :: ·) := by
      funext t
      unfold many Parts.andThen
      cases read t with
      | error e => rfl
      | ok p =>
        show _ = Parts.map (p.1 :: ·) (many read n) p.2
        unfold Parts.map
        dsimp only
        cases many read n p.2 <;> rfl
    rw [hthen]
    exact h.andThen fun x => ih.map (x :: ·)

theorem Local.array {read : Parts α} (h : Local read) : Local (array read) := by
  have hthen : Wire.array read = arrayHeader.andThen (many read) := by
    funext t
    unfold Wire.array Parts.andThen
    cases arrayHeader t <;> rfl
  rw [hthen]
  exact local_arrayHeader.andThen (local_many h)

theorem local_content (tag : Text) : Local (content tag) := by
  unfold content
  split
  · exact local_float.map _
  split
  · exact local_string.map _
  split
  · exact local_bool.map _
  split
  · exact local_string.map _
  · exact local_refuse _

/-- A part of two parts. -/
theorem Local.pair {read : Parts α} (h : Local read) (e : Nat → WireFault) :
    Local (arrayHeader.andThen fun n => if n = 2 then read else fun _ => .error (e n)) := by
  refine local_arrayHeader.andThen fun n => ?_
  split
  · exact h
  · exact local_refuse _

theorem local_constant : Local constant := by
  have hthen : constant = arrayHeader.andThen fun n => if n = 2 then string.andThen content
      else fun _ => .error (.corrupt (.constantFields n)) := by
    funext t
    unfold constant Parts.andThen
    cases arrayHeader t with
    | error e => rfl
    | ok p =>
      dsimp only [Except.bind]
      split
      · show _ = (string p.2).bind _
        cases string p.2 <;> rfl
      · rfl
  rw [hthen]
  exact (local_string.andThen local_content).pair fun n => .corrupt (.constantFields n)

theorem local_instruction : Local instruction := by
  have hthen : instruction = arrayHeader.andThen fun n => if n = 2 then
        (integerIn 0 0x100).andThen fun op =>
          (integerIn (-0x8000000000000000) 0x8000000000000000).map
            fun arg => ⟨UInt8.ofNat op.toNat, arg⟩
      else fun _ => .error (.corrupt (.instructionFields n)) := by
    funext t
    unfold instruction Parts.andThen
    cases arrayHeader t with
    | error e => rfl
    | ok p =>
      dsimp only [Except.bind]
      split
      · show _ = (integerIn 0 0x100 p.2).bind _
        cases integerIn 0 0x100 p.2 <;> rfl
      · rfl
  rw [hthen]
  have hfields := (local_integerIn 0 0x100).andThen fun op =>
    (local_integerIn (-0x8000000000000000) 0x8000000000000000).map
      fun arg => (⟨UInt8.ofNat op.toNat, arg⟩ : Instruction)
  exact hfields.pair fun n => .corrupt (.instructionFields n)

/-! ## 4. Parts that are not looked at -/

/-- What the first byte says of how far a part goes. -/
inductive Lead (b : UInt8) : Prop where
  | fixed (size elements : Nat) : (∀ t, extent (b :: t) = .ok (size, elements)) → Lead b
  | length (width extra : Nat) : (∀ t, extent (b :: t) =
      (Binary.number? width t).elim (.error .short) fun p => .ok (1 + width + extra + p.1, 0)) →
      Lead b
  | count (width each : Nat) : (∀ t, extent (b :: t) =
      (Binary.number? width t).elim (.error .short) fun p => .ok (1 + width, each * p.1)) →
      Lead b
  | bad (e : WireError) : (∀ t, extent (b :: t) = .error e) → Lead b

/-- The first bytes of parts with a length, how many bytes the length takes, and how many more bytes
    there are beside the content. -/
def sizedLeads : List (UInt8 × Nat × Nat) :=
  [(0xC4, 1, 0), (0xC5, 2, 0), (0xC6, 4, 0), (0xC7, 1, 1), (0xC8, 2, 1), (0xC9, 4, 1), (0xD9, 1, 0),
    (0xDA, 2, 0), (0xDB, 4, 0)]

/-- The first bytes of arrays and maps, how many bytes the count takes, and how many parts it counts
    for. -/
def countedLeads : List (UInt8 × Nat × Nat) :=
  [(0xDC, 2, 1), (0xDD, 4, 1), (0xDE, 2, 2), (0xDF, 4, 2)]

theorem extent_sized {b : UInt8} {width extra : Nat} (hb : (b, width, extra) ∈ sizedLeads)
    (t : Text) : extent (b :: t) = (Binary.number? width t).elim (.error .short) fun p =>
      .ok (1 + width + extra + p.1, 0) := by
  simp only [sizedLeads, List.mem_cons, Prod.mk.injEq, List.not_mem_nil, or_false] at hb
  cases h : Binary.number? width t <;>
    rcases hb with ⟨rfl, rfl, rfl⟩ | ⟨rfl, rfl, rfl⟩ | ⟨rfl, rfl, rfl⟩ | ⟨rfl, rfl, rfl⟩ |
      ⟨rfl, rfl, rfl⟩ | ⟨rfl, rfl, rfl⟩ | ⟨rfl, rfl, rfl⟩ | ⟨rfl, rfl, rfl⟩ | ⟨rfl, rfl, rfl⟩ <;>
    simp [extent, h]

theorem extent_counted {b : UInt8} {width each : Nat} (hb : (b, width, each) ∈ countedLeads)
    (t : Text) : extent (b :: t) = (Binary.number? width t).elim (.error .short) fun p =>
      .ok (1 + width, each * p.1) := by
  simp only [countedLeads, List.mem_cons, Prod.mk.injEq, List.not_mem_nil, or_false] at hb
  cases h : Binary.number? width t <;>
    rcases hb with ⟨rfl, rfl, rfl⟩ | ⟨rfl, rfl, rfl⟩ | ⟨rfl, rfl, rfl⟩ | ⟨rfl, rfl, rfl⟩ <;>
    simp [extent, h]

theorem lead_special {b : UInt8} (hlow : 0xC0 ≤ b.toNat) (hhigh : b.toNat < 0xE0) : Lead b := by
  by_cases hsized : b ∈ sizedLeads.map Prod.fst
  · obtain ⟨⟨_, width, extra⟩, hb, rfl⟩ := List.mem_map.mp hsized
    exact .length width extra (extent_sized hb)
  by_cases hcounted : b ∈ countedLeads.map Prod.fst
  · obtain ⟨⟨_, width, each⟩, hb, rfl⟩ := List.mem_map.mp hcounted
    exact .count width each (extent_counted hb)
  -- of the other bytes each says by itself how long its part is, or starts none
  rw [← UInt8.ofNat_toNat (x := b)] at hsized hcounted ⊢
  generalize b.toNat = n at hlow hhigh hsized hcounted ⊢
  interval_cases n
  all_goals first
    | exact .fixed _ _ fun _ => rfl
    | exact .bad _ fun _ => rfl
    | exact absurd (by decide) hsized
    | exact absurd (by decide) hcounted

theorem lead (b : UInt8) : Lead b := by
  by_cases hsmall : b.toNat < 0x80 ∨ 0xE0 ≤ b.toNat
  · exact .fixed 1 0 (fun t => by simp only [extent, if_pos hsmall])
  by_cases hmap : b.toNat < 0x90
  · exact .fixed 1 (2 * (b.toNat - 0x80))
      (fun t => by simp only [extent, if_neg hsmall, if_pos hmap])
  by_cases harray : b.toNat < 0xA0
  · exact .fixed 1 (b.toNat - 0x90)
      (fun t => by simp only [extent, if_neg hsmall, if_neg hmap, if_pos harray])
  by_cases hstring : b.toNat < 0xC0
  · exact .fixed (1 + (b.toNat - 0xA0)) 0 (fun t => by
      simp only [extent, if_neg hsmall, if_neg hmap, if_neg harray, if_pos hstring])
  exact lead_special (by omega) (by omega)

/-- How far a part goes is said by bytes that belong to it. -/
theorem extent_local {t : Text} {size elements : Nat} (h : extent t = .ok (size, elements))
    (hpos : 0 < size) : ∃ head rest, t = head ++ rest ∧ head.length ≤ size ∧
      ∀ rest', extent (head ++ rest') = .ok (size, elements) := by
  cases t with
  | nil => cases h
  | cons b t =>
    cases lead b with
    | fixed size' elements' hb =>
      rw [hb] at h
      cases h
      exact ⟨[b], t, rfl, hpos, hb⟩
    | length width extra hb =>
      rw [hb] at h
      cases hr : Binary.number? width t with
      | none =>
        rw [hr] at h
        cases h
      | some r =>
        rw [hr] at h
        cases h
        obtain ⟨front, ht, hlength, hfront⟩ := Binary.number?_local hr
        refine ⟨b :: front, r.2, by rw [ht]; rfl, by rw [List.length_cons]; omega, fun rest' => ?_⟩
        rw [List.cons_append, hb, hfront]
        rfl
    | count width each hb =>
      rw [hb] at h
      cases hr : Binary.number? width t with
      | none =>
        rw [hr] at h
        cases h
      | some r =>
        rw [hr] at h
        cases h
        obtain ⟨front, ht, hlength, hfront⟩ := Binary.number?_local hr
        refine ⟨b :: front, r.2, by rw [ht]; rfl, by rw [List.length_cons]; omega, fun rest' => ?_⟩
        rw [List.cons_append, hb, hfront]
        rfl
    | bad e hb =>
      rw [hb] at h
      cases h

theorem skip_local {n : Nat} {t rest : Text} (h : skip n t = .ok rest) :
    ∃ front, t = front ++ rest ∧ ∀ rest', skip n (front ++ rest') = .ok rest' := by
  induction n, t using skip.induct generalizing rest with
  | case1 t =>
    rw [skip] at h
    cases h
    exact ⟨[], rfl, fun rest' => by rw [List.nil_append, skip]⟩
  | case2 t n e he =>
    rw [skip, he] at h
    cases h
  | case3 t n size elements he hsize ih =>
    rw [skip, he] at h
    dsimp only at h
    rw [if_pos hsize] at h
    obtain ⟨front, hfront, hskip⟩ := ih h
    obtain ⟨head, tail, ht, hhead, hextent⟩ := extent_local he hsize.1
    -- the bytes of this part are the first `size`, and its extent is told by some of them
    have htake : t.take size = head ++ tail.take (size - head.length) := by
      rw [ht, List.take_append, List.take_of_length_le hhead]
    have hlength : (t.take size).length = size := by
      rw [List.length_take]
      omega
    refine ⟨t.take size ++ front, ?_, fun rest' => ?_⟩
    · rw [List.append_assoc, ← hfront, List.take_append_drop]
    · have hsame : extent (t.take size ++ (front ++ rest')) = .ok (size, elements) := by
        rw [htake, List.append_assoc]
        exact hextent _
      have hroom : 0 < size ∧ size ≤ (t.take size ++ (front ++ rest')).length := by
        rw [List.length_append, hlength]
        omega
      rw [List.append_assoc, skip, hsame]
      dsimp only
      rw [if_pos hroom, List.drop_left' hlength]
      exact hskip rest'
  | case4 t n size elements he hsize =>
    rw [skip, he] at h
    dsimp only at h
    rw [if_neg hsize] at h
    cases h

/-! ## 5. Entries -/

/-- What an entry holds. -/
inductive Content where
  | constants (vs : List Value)
  | code (is : List Instruction)
  | hash (n : Int)
  | other

namespace Content

/-- These bytes hold this, as an entry of this name. -/
inductive Holds : Text → Text → Content → Prop where
  | constants {bytes : Text} {vs : List Value} : Reads (array constant) bytes vs →
      Holds "constants" bytes (.constants vs)
  | code {bytes : Text} {is : List Instruction} : Reads (array instruction) bytes is →
      Holds "code" bytes (.code is)
  | hash {bytes : Text} {n : Int} : Reads (integerIn 0 0x10000000000000000) bytes n →
      Holds "sum" bytes (.hash n)
  | other {name bytes : Text} : name ∉ [("constants" : Text), "code", "sum"] →
      (∀ rest, skip 1 (bytes ++ rest) = .ok rest) → Holds name bytes .other

/-- A hash is that of the bytes before it. -/
def Passes (before : Text) : Content → Prop
  | .hash n => n = ((Blake2b.sum before).toNat : Int)
  | _ => True

/-- It is a hash. -/
def isHash : Content → Bool
  | .hash _ => true
  | _ => false

end Content

/-- The draft with what an entry holds: constants and code replace those there are. -/
def Draft.update (d : Draft) : Content → Draft
  | .constants vs => { d with script.constants := vs.toArray }
  | .code is => { d with script.code := is.toArray }
  | .hash _ => { d with checked := true }
  | .other => d

theorem entry_other {name : Text} (h : name ∉ [("constants" : Text), "code", "sum"])
    (covered : Unit → Text) (d : Draft) (t : Text) :
    entry name covered d t = ((skip 1 t).mapError WireFault.wire).map fun rest => (d, rest) := by
  simp only [List.mem_cons, List.not_mem_nil, or_false, not_or] at h
  rw [entry, if_neg h.1, if_neg h.2.1, if_neg h.2.2]
  cases skip 1 t <;> rfl

theorem ok_of_map {read : Parts α} {f : α → β} {t rest : Text} {b : β}
    (h : read.map f t = .ok (b, rest)) : ∃ a, read t = .ok (a, rest) ∧ b = f a := by
  unfold Parts.map at h
  split at h
  · cases h
  · rename_i a rest' hread
    cases h
    exact ⟨a, hread, rfl⟩

theorem ok_of_checksum {before t rest : Text} {u : Unit} (h : checksum before t = .ok (u, rest)) :
    integerIn 0 0x10000000000000000 t = .ok (((Blake2b.sum before).toNat : Int), rest) := by
  unfold checksum at h
  split at h
  · cases h
  · rename_i n rest' hread
    split at h
    · rename_i hn
      cases h
      rw [hread, hn]
    · cases h

/-- What a reader takes from some bytes is decided by them. -/
theorem Reads.inj {read : Parts α} {bytes bytes' t t' : Text} {a a' : α} (h : Reads read bytes a)
    (h' : Reads read bytes' a') (heq : bytes ++ t = bytes' ++ t') :
    bytes = bytes' ∧ a = a' ∧ t = t' := by
  have hread := h t
  rw [heq, h' t'] at hread
  cases hread
  exact ⟨List.append_cancel_right heq, rfl, rfl⟩

theorem Content.Holds.inj {name bytes bytes' t t' : Text} {content content' : Content}
    (h : Content.Holds name bytes content) (h' : Content.Holds name bytes' content')
    (heq : bytes ++ t = bytes' ++ t') : bytes = bytes' ∧ content = content' ∧ t = t' := by
  cases h with
  | constants hreads =>
    cases h' with
    | constants hreads' =>
      obtain ⟨hbytes, rfl, ht⟩ := hreads.inj hreads' heq
      exact ⟨hbytes, rfl, ht⟩
    | other hname => exact absurd (by simp) hname
  | code hreads =>
    cases h' with
    | code hreads' =>
      obtain ⟨hbytes, rfl, ht⟩ := hreads.inj hreads' heq
      exact ⟨hbytes, rfl, ht⟩
    | other hname => exact absurd (by simp) hname
  | hash hreads =>
    cases h' with
    | hash hreads' =>
      obtain ⟨hbytes, rfl, ht⟩ := hreads.inj hreads' heq
      exact ⟨hbytes, rfl, ht⟩
    | other hname => exact absurd (by simp) hname
  | other hname hskip =>
    cases h' with
    | other _ hskip' =>
      have ht := hskip t
      rw [heq, hskip' t'] at ht
      cases ht
      exact ⟨List.append_cancel_right heq, rfl, rfl⟩
    | _ => exact absurd (by simp) hname

theorem entry_of_holds {name bytes before : Text} {content : Content}
    (h : Content.Holds name bytes content) (hpass : content.Passes before) (d : Draft) :
    Reads (entry name (fun _ => before) d) bytes (d.update content) := by
  cases h with
  | constants hreads =>
    rw [entry_constants]
    exact hreads.map _
  | code hreads =>
    rw [entry_code]
    exact hreads.map _
  | hash hreads =>
    rw [entry_sum]
    have hsum : Reads (checksum before) bytes () := by
      intro rest
      rw [checksum, hreads]
      exact if_pos hpass
    exact hsum.map _
  | other hname hskip =>
    intro rest
    rw [entry_other hname, hskip]
    rfl

theorem holds_of_entry {name before t rest : Text} {d d' : Draft}
    (h : entry name (fun _ => before) d t = .ok (d', rest)) :
    ∃ bytes content, t = bytes ++ rest ∧ Content.Holds name bytes content ∧
      content.Passes before ∧ d' = d.update content := by
  by_cases hconstants : name = ("constants" : Text)
  · subst hconstants
    rw [entry_constants] at h
    obtain ⟨vs, hread, rfl⟩ := ok_of_map h
    obtain ⟨bytes, ht, hreads⟩ := local_constant.array hread
    exact ⟨bytes, .constants vs, ht, .constants hreads, trivial, rfl⟩
  by_cases hcode : name = ("code" : Text)
  · subst hcode
    rw [entry_code] at h
    obtain ⟨is, hread, rfl⟩ := ok_of_map h
    obtain ⟨bytes, ht, hreads⟩ := local_instruction.array hread
    exact ⟨bytes, .code is, ht, .code hreads, trivial, rfl⟩
  by_cases hsum : name = ("sum" : Text)
  · subst hsum
    rw [entry_sum] at h
    obtain ⟨u, hread, rfl⟩ := ok_of_map h
    obtain ⟨bytes, ht, hreads⟩ := local_integerIn _ _ (ok_of_checksum hread)
    exact ⟨bytes, .hash _, ht, .hash hreads, rfl, rfl⟩
  have hname : name ∉ [("constants" : Text), "code", "sum"] := by
    simp only [List.mem_cons, List.not_mem_nil, or_false, not_or]
    exact ⟨hconstants, hcode, hsum⟩
  rw [entry_other hname] at h
  cases hskip : skip 1 t with
  | error e =>
    rw [hskip] at h
    cases h
  | ok rest' =>
    rw [hskip] at h
    cases h
    obtain ⟨bytes, ht, hskips⟩ := skip_local hskip
    exact ⟨bytes, .other, ht, .other hname hskips, trivial, rfl⟩

/-- An entry of a map: its key, its content, and the bytes of both. -/
structure Entry where
  name : Text
  key : Text
  bytes : Text
  content : Content
  key_reads : Reads Wire.key key name
  holds : Content.Holds name bytes content

/-- All bytes of an entry. -/
def Entry.text (e : Entry) : Text := e.key ++ e.bytes

/-- All bytes of some entries. -/
def textOf (es : List Entry) : Text := es.flatMap Entry.text

/-- The draft after some more entries. -/
def Draft.updateAll (d : Draft) (es : List Entry) : Draft :=
  es.foldl (fun d e => d.update e.content) d

/-- Every hash among the entries is that of the bytes before it, which are `before` for the
    first. -/
def Passing : Text → List Entry → Prop
  | _, [] => True
  | before, e :: es => e.content.Passes before ∧ Passing (before ++ e.text) es

theorem textOf_cons (e : Entry) (es : List Entry) (rest : Text) :
    textOf (e :: es) ++ rest = e.key ++ (e.bytes ++ (textOf es ++ rest)) := by
  simp only [textOf, List.flatMap_cons, Entry.text, List.append_assoc]

/-- **There is one way to tell a number of entries apart.** -/
theorem textOf_inj {es es' : List Entry} {rest rest' : Text} (hlength : es.length = es'.length)
    (h : textOf es ++ rest = textOf es' ++ rest') : es = es' ∧ rest = rest' := by
  induction es generalizing es' with
  | nil =>
    cases List.length_eq_zero_iff.mp hlength.symm
    exact ⟨rfl, h⟩
  | cons e es ih =>
    cases es' with
    | nil => cases hlength
    | cons e' es' =>
      rw [textOf_cons, textOf_cons] at h
      rcases e with ⟨name, key, bytes, content, hkey, hholds⟩
      rcases e' with ⟨name', key', bytes', content', hkey', hholds'⟩
      obtain ⟨rfl, rfl, hbytes⟩ := hkey.inj hkey' h
      obtain ⟨rfl, rfl, hmore⟩ := hholds.inj hholds' hbytes
      obtain ⟨rfl, hrest⟩ := ih (Nat.succ.inj hlength) hmore
      exact ⟨rfl, hrest⟩

/-- **Entries are accepted exactly if they can be told apart and every hash is right.** -/
theorem entries_eq_ok_iff (before : Text) {t rest : Text} {n : Nat} {d d' : Draft} :
    entries (before ++ t) n d t = .ok (d', rest) ↔
      ∃ es : List Entry, es.length = n ∧ t = textOf es ++ rest ∧ Passing before es ∧
        d' = d.updateAll es := by
  have hcovered (before t : Text) :
      (before ++ t).take ((before ++ t).length - t.length) = before := by
    rw [List.length_append, Nat.add_sub_cancel]
    exact List.take_left
  induction n generalizing before t d with
  | zero =>
    constructor
    · intro h
      cases h
      exact ⟨[], rfl, rfl, trivial, rfl⟩
    · rintro ⟨es, hlength, rfl, -, rfl⟩
      cases List.length_eq_zero_iff.mp hlength
      rfl
  | succ n ih =>
    have hstart (key bytes more : Text) :
        before ++ (key ++ (bytes ++ more)) = before ++ (key ++ bytes) ++ more := by
      simp only [List.append_assoc]
    constructor
    · intro h
      rw [entries, hcovered] at h
      split at h
      · cases h
      · rename_i name t' hkey
        split at h
        · cases h
        · rename_i d₁ t'' hentry
          obtain ⟨key, rfl, hkeys⟩ := local_key hkey
          obtain ⟨bytes, content, rfl, hholds, hpass, rfl⟩ := holds_of_entry hentry
          rw [hstart] at h
          obtain ⟨es, hlength, rfl, hpasses, rfl⟩ := (ih _).mp h
          refine ⟨⟨name, key, bytes, content, hkeys, hholds⟩ :: es, ?_, ?_, ⟨hpass, hpasses⟩, rfl⟩
          · rw [List.length_cons, hlength]
          · rw [textOf_cons]
    · rintro ⟨es, hlength, rfl, hpasses, rfl⟩
      cases es with
      | nil => cases hlength
      | cons e es =>
        have hentry := entry_of_holds e.holds hpasses.1 d (textOf es ++ rest)
        rw [entries, hcovered, textOf_cons, e.key_reads]
        dsimp only
        rw [hentry]
        dsimp only
        rw [hstart]
        exact (ih _).mpr ⟨es, Nat.succ.inj hlength, rfl, hpasses.2, rfl⟩

end Wire

/-! ## 6. Layouts -/

/-- How the bytes of a script are divided: a header, and as many entries as it says. -/
structure Layout where
  header : Text
  entries : List Wire.Entry
  header_reads : Wire.Reads Wire.mapHeader header entries.length

namespace Layout

variable (l : Layout)

/-- All bytes. -/
def bytes : Text := l.header ++ Wire.textOf l.entries

/-- The draft that the entries add up to. -/
def draft : Wire.Draft := Wire.Draft.updateAll ⟨Script.empty, false⟩ l.entries

/-- What entry `j` holds. -/
def content? (j : Nat) : Option Wire.Content := l.entries[j]?.map Wire.Entry.content

/-- Everything between the header and entry `j`. -/
def before (j : Nat) : Text := Wire.textOf (l.entries.take j)

/-- Entry `j` is a hash. -/
def IsHash (j : Nat) : Prop := ∃ n, l.content? j = some (.hash n)

/-- Entry `j` is the hash of everything before it. -/
def Checked (j : Nat) : Prop := l.content? j = some (.hash (Blake2b.sum (l.before j)).toNat)

/-- Entry `k` lies in a region that has been compared with its hash. -/
def Covered (k : Nat) : Prop := ∃ j, k < j ∧ l.Checked j

/-- Entry `k` holds these constants, and no later entry holds any. -/
def KeepsConstants (k : Nat) (vs : List Value) : Prop :=
  l.content? k = some (.constants vs) ∧ ∀ j vs', k < j → l.content? j ≠ some (.constants vs')

/-- Entry `k` holds this code, and no later entry holds any. -/
def KeepsCode (k : Nat) (is : List Instruction) : Prop :=
  l.content? k = some (.code is) ∧ ∀ j is', k < j → l.content? j ≠ some (.code is')

/-- Bytes have one layout at most. -/
theorem unique {l l' : Layout} {rest : Text} (h : l.bytes ++ rest = l'.bytes ++ rest) : l = l' := by
  rcases l with ⟨header, entries, hheader⟩
  rcases l' with ⟨header', entries', hheader'⟩
  simp only [bytes, List.append_assoc] at h
  obtain ⟨rfl, hlength, htext⟩ := hheader.inj hheader' h
  obtain ⟨rfl, -⟩ := Wire.textOf_inj hlength htext
  rfl

end Layout

namespace Wire

theorem Draft.checked_updateAll (es : List Entry) (d : Draft) :
    (d.updateAll es).checked = (d.checked || es.any fun e => e.content.isHash) := by
  induction es generalizing d with
  | nil => simp [updateAll]
  | cons e es ih =>
    have hstep : (d.update e.content).checked = (d.checked || e.content.isHash) := by
      cases e.content <;> simp [update, Content.isHash]
    show ((d.update e.content).updateAll es).checked = _
    rw [ih, hstep, List.any_cons, Bool.or_assoc]

/-- Entries that hold no constants leave those of the draft. -/
theorem Draft.constants_updateAll {es : List Entry}
    (h : ∀ e ∈ es, ∀ vs, e.content ≠ .constants vs) (d : Draft) :
    (d.updateAll es).script.constants = d.script.constants := by
  induction es generalizing d with
  | nil => rfl
  | cons e es ih =>
    have hstep : (d.update e.content).script.constants = d.script.constants := by
      have he := h e List.mem_cons_self
      cases hc : e.content with
      | constants vs => exact absurd hc (he vs)
      | _ => rfl
    show ((d.update e.content).updateAll es).script.constants = _
    rw [ih (fun e' he' => h e' (List.mem_cons_of_mem e he')), hstep]

/-- Entries that hold no code leave that of the draft. -/
theorem Draft.code_updateAll {es : List Entry} (h : ∀ e ∈ es, ∀ is, e.content ≠ .code is)
    (d : Draft) : (d.updateAll es).script.code = d.script.code := by
  induction es generalizing d with
  | nil => rfl
  | cons e es ih =>
    have hstep : (d.update e.content).script.code = d.script.code := by
      have he := h e List.mem_cons_self
      cases hc : e.content with
      | code is => exact absurd hc (he is)
      | _ => rfl
    show ((d.update e.content).updateAll es).script.code = _
    rw [ih (fun e' he' => h e' (List.mem_cons_of_mem e he')), hstep]

theorem passing_iff {before : Text} {es : List Entry} : Passing before es ↔
    ∀ (j : Nat) (e : Entry), es[j]? = some e →
      e.content.Passes (before ++ textOf (es.take j)) := by
  induction es generalizing before with
  | nil => simp [Passing]
  | cons e es ih =>
    rw [Passing, ih]
    constructor
    · rintro ⟨hpass, hrest⟩ j e' hj
      cases j with
      | zero =>
        cases hj
        simpa [textOf] using hpass
      | succ j =>
        have hlater := hrest j e' hj
        simpa [textOf] using hlater
    · intro h
      refine ⟨by simpa [textOf] using h 0 e rfl, fun j e' hj => ?_⟩
      have hlater := h (j + 1) e' hj
      simpa [textOf] using hlater

theorem passing_append {before : Text} {es es' : List Entry} :
    Passing before (es ++ es') ↔ Passing before es ∧ Passing (before ++ textOf es) es' := by
  induction es generalizing before with
  | nil => simp [Passing, textOf]
  | cons e es ih =>
    rw [List.cons_append, Passing, Passing, ih, and_assoc]
    simp [textOf]

/-- Entries without a hash have nothing to pass. -/
theorem passing_of_no_hash {es : List Entry} (h : ∀ e ∈ es, e.content.isHash = false)
    (before : Text) : Passing before es := by
  refine passing_iff.mpr fun j e hj => ?_
  have he := h e (List.mem_of_getElem? hj)
  cases hc : e.content with
  | hash n =>
    rw [hc] at he
    cases he
  | _ => trivial

end Wire

/-- **The bytes that are accepted as a script**: they are laid out as a header and entries, every
    hash among the entries is that of the entries before it, and there is one. -/
theorem Script.decode_eq_ok_iff {bytes rest : Text} {z : Script} :
    Script.decode bytes = .ok (z, rest) ↔ ∃ l : Layout, bytes = l.bytes ++ rest ∧
      Wire.Passing [] l.entries ∧ l.draft.checked = true ∧ z = l.draft.script := by
  constructor
  · intro h
    unfold Script.decode at h
    split at h
    · cases h
    · rename_i n start hheader
      split at h
      · cases h
      · rename_i d rest' hentries
        split at h
        · rename_i hchecked
          cases h
          obtain ⟨header, rfl, hreads⟩ := Wire.local_mapHeader hheader
          obtain ⟨es, hlength, rfl, hpass, rfl⟩ := (Wire.entries_eq_ok_iff []).mp hentries
          subst hlength
          exact ⟨⟨header, es, hreads⟩, (List.append_assoc ..).symm, hpass, hchecked, rfl⟩
        · cases h
  · rintro ⟨l, rfl, hpass, hchecked, rfl⟩
    have hentries : Wire.entries (Wire.textOf l.entries ++ rest) l.entries.length
        ⟨Script.empty, false⟩ (Wire.textOf l.entries ++ rest) = .ok (l.draft, rest) :=
      (Wire.entries_eq_ok_iff []).mpr ⟨l.entries, rfl, rfl, hpass, rfl⟩
    rw [Script.decode, Layout.bytes, List.append_assoc, l.header_reads]
    dsimp only
    rw [hentries]
    exact if_pos hchecked

/-! ## 7. What is covered -/

namespace Layout

variable {l : Layout}

theorem content?_eq_some {j : Nat} {x : Wire.Content} :
    l.content? j = some x ↔ ∃ e, l.entries[j]? = some e ∧ e.content = x := by
  unfold content?
  exact Option.map_eq_some_iff

/-- In a layout that passes every hash is checked. -/
theorem checked_of_isHash (h : Wire.Passing [] l.entries) {j : Nat} (hj : l.IsHash j) :
    l.Checked j := by
  obtain ⟨n, hn⟩ := hj
  obtain ⟨e, he, hcontent⟩ := content?_eq_some.mp hn
  have hpass := Wire.passing_iff.mp h j e he
  rw [hcontent] at hpass
  have hsum : n = ((Blake2b.sum (l.before j)).toNat : Int) := hpass
  rw [Checked, hn, hsum]

theorem covered_iff (h : Wire.Passing [] l.entries) (k : Nat) :
    l.Covered k ↔ ∃ j, k < j ∧ l.IsHash j := by
  constructor
  · rintro ⟨j, hkj, hj⟩
    exact ⟨j, hkj, _, hj⟩
  · rintro ⟨j, hkj, hj⟩
    exact ⟨j, hkj, checked_of_isHash h hj⟩

theorem exists_isHash (h : l.draft.checked = true) : ∃ j, l.IsHash j := by
  rw [draft, Wire.Draft.checked_updateAll, Bool.false_or, List.any_eq_true] at h
  obtain ⟨e, he, hhash⟩ := h
  obtain ⟨j, hj⟩ := List.mem_iff_getElem?.mp he
  cases hc : e.content with
  | hash n => exact ⟨j, n, content?_eq_some.mpr ⟨e, hj, hc⟩⟩
  | _ =>
    rw [hc] at hhash
    cases hhash

/-- The entries from `k` on, taken apart. -/
theorem entries_split {k : Nat} {e : Wire.Entry} (h : l.entries[k]? = some e) :
    l.entries = l.entries.take k ++ e :: l.entries.drop (k + 1) := by
  obtain ⟨hk, he⟩ := List.getElem?_eq_some_iff.mp h
  rw [← he, List.cons_getElem_drop_succ, List.take_append_drop]

/-- What holds of no later entry holds of none of the entries after `k`. -/
theorem not_mem_drop {k : Nat} {x : Wire.Content} (h : ∀ j, k < j → l.content? j ≠ some x) :
    ∀ e ∈ l.entries.drop (k + 1), e.content ≠ x := by
  intro e he hx
  obtain ⟨j, hj⟩ := List.mem_iff_getElem?.mp he
  rw [List.getElem?_drop] at hj
  exact h (k + 1 + j) (by omega) (content?_eq_some.mpr ⟨e, hj, hx⟩)

theorem constants_of_keeps {k : Nat} {vs : List Value} (h : l.KeepsConstants k vs) :
    l.draft.script.constants = vs.toArray := by
  obtain ⟨hk, hlast⟩ := h
  obtain ⟨e, he, hcontent⟩ := content?_eq_some.mp hk
  have hrest : ∀ e ∈ l.entries.drop (k + 1), ∀ vs, e.content ≠ .constants vs :=
    fun e he vs => not_mem_drop (fun j hj => hlast j vs hj) e he
  rw [draft, entries_split he, Wire.Draft.updateAll, List.foldl_append, List.foldl_cons, hcontent]
  exact Wire.Draft.constants_updateAll hrest _

theorem code_of_keeps {k : Nat} {is : List Instruction} (h : l.KeepsCode k is) :
    l.draft.script.code = is.toArray := by
  obtain ⟨hk, hlast⟩ := h
  obtain ⟨e, he, hcontent⟩ := content?_eq_some.mp hk
  have hrest : ∀ e ∈ l.entries.drop (k + 1), ∀ is, e.content ≠ .code is :=
    fun e he is => not_mem_drop (fun j hj => hlast j is hj) e he
  rw [draft, entries_split he, Wire.Draft.updateAll, List.foldl_append, List.foldl_cons, hcontent]
  exact Wire.Draft.code_updateAll hrest _

/-- What stands after the last hash can be exchanged for other entries. -/
theorem decode_of_same_hashed {l' : Layout} {hashed tail tail' : List Wire.Entry}
    (h : Wire.Passing [] l.entries) (hchecked : l.draft.checked = true)
    (hl : l.entries = hashed ++ tail) (hl' : l'.entries = hashed ++ tail')
    (htail : ∀ e ∈ tail, e.content.isHash = false)
    (htail' : ∀ e ∈ tail', e.content.isHash = false) (rest : Text) :
    Script.decode (l'.bytes ++ rest) = .ok (l'.draft.script, rest) := by
  have hnone : ∀ es : List Wire.Entry, (∀ e ∈ es, e.content.isHash = false) →
      (es.any fun e => e.content.isHash) = false := by
    intro es hes
    rw [List.any_eq_false]
    exact fun e he => by rw [hes e he]; exact Bool.false_ne_true
  rw [hl, Wire.passing_append] at h
  rw [draft, Wire.Draft.checked_updateAll, hl, List.any_append, hnone tail htail] at hchecked
  refine Script.decode_eq_ok_iff.mpr ⟨l', rfl, ?_, ?_, rfl⟩
  · rw [hl', Wire.passing_append]
    exact ⟨h.1, Wire.passing_of_no_hash htail' _⟩
  · rw [draft, Wire.Draft.checked_updateAll, hl', List.any_append, hnone tail' htail']
    exact hchecked

end Layout

/-- **What the hashes of an accepted script vouch for.** Bytes that are accepted are laid out as a
    header and entries, in one way only, and the script has the constants and the code of the last
    entries that hold any. Some entry is the hash of everything between the header and itself. But
    an entry lies in a region that has been compared with its hash exactly if a hash stands after
    it; and what stands after the last hash can be exchanged for any other entries without a hash,
    and is then accepted in its place. -/
theorem accepted_coverage {bytes rest : Text} {z : Script}
    (h : Script.decode bytes = .ok (z, rest)) :
    ∃ l : Layout, bytes = l.bytes ++ rest ∧ (∀ l' : Layout, bytes = l'.bytes ++ rest → l' = l) ∧
      z = l.draft.script ∧
      (∀ k vs, l.KeepsConstants k vs → z.constants = vs.toArray) ∧
      (∀ k is, l.KeepsCode k is → z.code = is.toArray) ∧
      (∃ j, l.Checked j) ∧ (∀ k, l.Covered k ↔ ∃ j, k < j ∧ l.IsHash j) ∧
      ∀ (l' : Layout) (hashed tail tail' : List Wire.Entry), l.entries = hashed ++ tail →
        l'.entries = hashed ++ tail' → (∀ e ∈ tail, e.content.isHash = false) →
        (∀ e ∈ tail', e.content.isHash = false) →
        ∀ rest', Script.decode (l'.bytes ++ rest') = .ok (l'.draft.script, rest') := by
  obtain ⟨l, hbytes, hpass, hchecked, rfl⟩ := Script.decode_eq_ok_iff.mp h
  obtain ⟨j, hj⟩ := Layout.exists_isHash hchecked
  refine ⟨l, hbytes, fun l' hbytes' => Layout.unique (hbytes'.symm.trans hbytes), rfl,
    fun k vs => Layout.constants_of_keeps, fun k is => Layout.code_of_keeps,
    ⟨j, Layout.checked_of_isHash hpass hj⟩, Layout.covered_iff hpass, ?_⟩
  intro l' hashed tail tail' hl hl' htail htail'
  exact Layout.decode_of_same_hashed hpass hchecked hl hl' htail htail'

/-! ## 8. Hashes that cover a script, and one that does not -/

/-- An entry with the hash of these bytes. -/
def sumEntry (before : Text) : Wire.Entry where
  name := "sum"
  key := writeString "sum"
  bytes := writeNat (Blake2b.sum before).toNat
  content := .hash (Blake2b.sum before).toNat
  key_reads := Wire.reads_key (by decide)
  holds := by
    have hlt : (Blake2b.sum before).toNat < 0x10000000000000000 := (Blake2b.sum before).toNat_lt
    have hread := Wire.reads_integerIn (Wire.reads_writeNat hlt) (Int.natCast_nonneg _)
      (show ((Blake2b.sum before).toNat : Int) < 0x10000000000000000 by omega)
    exact .hash hread

/-- An entry without constants. -/
def noConstants : Wire.Entry where
  name := "constants"
  key := writeString "constants"
  bytes := MessagePack.arrayHeader 0 ++ []
  content := .constants []
  key_reads := Wire.reads_key (by decide)
  holds := .constants (Wire.Reads.array (by decide) fun _ => rfl)

/-- An entry with one instruction. -/
def oneInstruction : Wire.Entry where
  name := "code"
  key := writeString "code"
  bytes := MessagePack.arrayHeader 1 ++ [⟨Opcode.const, 5⟩].flatMap Script.writeInstruction
  content := .code [⟨Opcode.const, 5⟩]
  key_reads := Wire.reads_key (by decide)
  holds := by
    have hread : Wire.Reads (Wire.many Wire.instruction 1)
        ([⟨Opcode.const, 5⟩].flatMap Script.writeInstruction) [⟨Opcode.const, 5⟩] :=
      @Wire.reads_code [⟨Opcode.const, 5⟩] (by decide)
    exact .code (hread.array (by decide))

/-- The hash of nothing, and after it a script. -/
def hashFirst : Layout where
  header := MessagePack.mapHeader 3
  entries := [sumEntry [], noConstants, oneInstruction]
  header_reads := fun _ => rfl

theorem decode_hashFirst :
    Script.decode (hashFirst.bytes ++ []) = .ok (hashFirst.draft.script, []) :=
  Script.decode_eq_ok_iff.mpr ⟨hashFirst, rfl, ⟨rfl, trivial, trivial, trivial⟩, rfl, rfl⟩

/-- **A script can be accepted though no hash covers it**: its hash comes first, and covers
    nothing. -/
theorem hashFirst_not_covered :
    Script.decode (hashFirst.bytes ++ []) = .ok (hashFirst.draft.script, []) ∧
    hashFirst.draft.script.code = #[⟨Opcode.const, 5⟩] ∧
    hashFirst.KeepsCode 2 [⟨Opcode.const, 5⟩] ∧ ¬ hashFirst.Covered 2 := by
  have hnone : ∀ j, 2 < j → hashFirst.content? j = none := by
    intro j hj
    have hentry : hashFirst.entries[j]? = none := List.getElem?_eq_none hj
    rw [Layout.content?, hentry, Option.map_none]
  refine ⟨decode_hashFirst, rfl, ⟨rfl, fun j is hj => ?_⟩, ?_⟩
  · rw [hnone j hj]
    exact nofun
  · rintro ⟨j, hj, hchecked⟩
    rw [Layout.Checked, hnone j hj] at hchecked
    cases hchecked

/-- A script between two hashes, of nothing and of all that stands before. -/
def hashLast : Layout where
  header := MessagePack.mapHeader 4
  entries := [sumEntry [], noConstants, oneInstruction,
    sumEntry (Wire.textOf [sumEntry [], noConstants, oneInstruction])]
  header_reads := fun _ => rfl

theorem decode_hashLast :
    Script.decode (hashLast.bytes ++ []) = .ok (hashLast.draft.script, []) := by
  have hpass : Wire.Passing [] ([sumEntry [], noConstants, oneInstruction] ++
      [sumEntry (Wire.textOf [sumEntry [], noConstants, oneInstruction])]) :=
    Wire.passing_append.mpr ⟨⟨rfl, trivial, trivial, trivial⟩, rfl, trivial⟩
  exact Script.decode_eq_ok_iff.mpr ⟨hashLast, rfl, hpass, rfl, rfl⟩

theorem accepted_coverage_hashFirst :
    Script.decode (hashFirst.bytes ++ []) = .ok (hashFirst.draft.script, []) ∧
    Script.decode (hashLast.bytes ++ []) = .ok (hashLast.draft.script, []) ∧
    (∃ l : Layout, hashFirst.bytes ++ [] = l.bytes ++ [] ∧ (∃ j, l.Checked j) ∧
      ∀ k, l.Covered k ↔ ∃ j, k < j ∧ l.IsHash j) ∧
    hashLast.Covered 1 ∧ hashLast.Covered 2 := by
  obtain ⟨l, hbytes, -, -, -, -, hchecked, hcovered, -⟩ := accepted_coverage decode_hashFirst
  obtain ⟨l', -, honly, -, -, -, -, hcovered', -⟩ := accepted_coverage decode_hashLast
  obtain rfl := honly hashLast rfl
  have hhash : hashLast.IsHash 3 := ⟨_, rfl⟩
  exact ⟨decode_hashFirst, decode_hashLast, ⟨l, hbytes, hchecked, hcovered⟩,
    (hcovered' 1).mpr ⟨3, by decide, hhash⟩, (hcovered' 2).mpr ⟨3, by decide, hhash⟩⟩

end SmallLisp
