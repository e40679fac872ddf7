import SmallLisp.Proofs.Script.Meaning

/-!
# The pool of constants

A compiler asks its index for a constant before it adds one. If no two constants that differ in kind
or source form have one hash, then the index knows every constant of the pool, and nothing is added
twice.

* `Value.identity`: what constants are told apart by. A literal or an atom is known from it
  (`Value.Constant.eq_of_identity`).
* `Compiler.Records`: how pool, index and code hang together after some emissions. One emission
  keeps this (`Compiler.Records.perform`), and so do many.
* `pool_by_first_use`: the pool of accepted programs has each of their constants once, in order of
  first use, and each instruction refers to the constant it was emitted for.
-/

namespace SmallLisp

open Node

/-! ## 1. Constants -/

theorem Text.ofString_injective {s t : String} (h : Text.ofString s = Text.ofString t) : s = t := by
  have hchars := congrArg Utf8.decode h
  unfold Text.ofString at hchars
  rw [Utf8.decode_encode, Utf8.decode_encode] at hchars
  exact String.toList_inj.mp hchars

/-- Different numbers are written differently, the two zeros too. -/
theorem eq_of_plain {x y : Float} (hx : x.isFinite = true) (hy : y.isFinite = true)
    (h : Number.plain x = Number.plain y) : x = y := by
  have hread := classify_plain hx
  rw [h, classify_plain hy] at hread
  cases hread
  rfl

namespace Value

/-- What constants are told apart by: the kind of a value and its source form. -/
def identity (v : Value) : String × Text := (v.typeName, v.sexp)

theorem key_of_identity {v w : Value} (h : v.identity = w.identity) : v.key = w.key := by
  obtain ⟨htype, hsexp⟩ := Prod.mk.inj h
  unfold key
  rw [htype, hsexp]

/-- What a program can hold as a constant. -/
inductive Constant : Value → Prop where
  | number {x : Float} : x.isFinite = true → Constant (.number x)
  | string (t : Text) : Constant (.string t)
  | bool (b : Bool) : Constant (.bool b)
  | atom (name : Text) : Constant (.atom name Loc.unknown)

namespace Constant

theorem equal_self {v : Value} (h : v.Constant) : v.equal v = true := by
  cases h with
  | number hx => exact Binary64.beq_self ((isFinite_iff _).mp hx).1
  | _ => exact beq_self_eq_true _

/-- **A constant is known from its kind and its source form.** -/
theorem eq_of_identity {v w : Value} (hv : v.Constant) (hw : w.Constant)
    (h : v.identity = w.identity) : v = w := by
  obtain ⟨htype, hsexp⟩ := Prod.mk.inj h
  cases hv with
  | number hx =>
    cases hw with
    | number hy => exact congrArg Value.number (eq_of_plain hx hy (Text.ofString_injective hsexp))
    | _ => simp [typeName] at htype
  | string t =>
    cases hw with
    | string u =>
      have hquoted : Text.ofString "\"" ++ t = Text.ofString "\"" ++ u :=
        List.append_cancel_right hsexp
      exact congrArg Value.string (List.append_cancel_left hquoted)
    | _ => simp [typeName] at htype
  | bool b =>
    cases hw with
    | bool c =>
      refine congrArg Value.bool ?_
      revert hsexp
      cases b <;> cases c <;> decide
    | _ => simp [typeName] at htype
  | atom name =>
    cases hw with
    | atom other => exact congrArg (Value.atom · Loc.unknown) hsexp
    | _ => simp [typeName] at htype

end Constant

end Value

theorem Node.constant_of_readable {n : Node} (hn : n.Readable) {v : Value}
    (hv : n.literal? = some v) : v.Constant := by
  cases n with
  | number i x =>
    cases hv
    exact .number hn
  | string i text | bool i b | atom i name =>
    cases hv
    constructor
  | unit i | list i items | progn i items => cases hv

/-! ## 2. The constants of a program -/

/-- The literal or the atom occurs in the expression. -/
inductive Node.Has : Node → Value → Prop where
  | leaf {n : Node} {v : Value} : n.literal? = some v → Has n v
  | item {i : NodeInfo} {items : List Node} {n : Node} {v : Value} : n ∈ items → Has n v →
      Has (.list i items) v

theorem Node.has_list_iff {i : NodeInfo} {items : List Node} {v : Value} :
    (Node.list i items).Has v ↔ ∃ n ∈ items, n.Has v := by
  constructor
  · intro h
    cases h with
    | leaf h => cases h
    | item hn h => exact ⟨_, hn, h⟩
  · rintro ⟨n, hn, h⟩
    exact .item hn h

theorem Node.AllReadable.readable {ns : List Node} (h : AllReadable ns) :
    ∀ n ∈ ns, n.Readable := by
  induction ns with
  | nil => exact fun n hn => absurd hn List.not_mem_nil
  | cons n ns ih => exact List.forall_mem_cons.mpr ⟨h.1, ih h.2⟩

theorem Node.Has.constant {n : Node} {v : Value} (h : n.Has v) (hn : n.Readable) :
    v.Constant := by
  induction h with
  | leaf h => exact constant_of_readable hn h
  | @item i items n v hmem _ ih =>
    have hitems : AllReadable items := hn
    exact ih (hitems.readable n hmem)

/-- The constants that emissions ask for. -/
def pushes (es : List Emission) : List Value :=
  es.filterMap fun
    | .push v => some v
    | .call _ => none

@[simp] theorem pushes_append (es fs : List Emission) :
    pushes (es ++ fs) = pushes es ++ pushes fs := List.filterMap_append

@[simp] theorem pushes_push (v : Value) : pushes [.push v] = [v] := rfl

@[simp] theorem pushes_call (n : Nat) : pushes [.call n] = [] := rfl

mutual

/-- The plan of an expression pushes the constants that occur in it. -/
theorem mem_pushes_plan {n : Node} (hn : n.Readable) {v : Value} :
    v ∈ pushes n.plan ↔ n.Has v := by
  match n with
  | .number _ _ | .string _ _ | .bool _ _ | .atom _ _ =>
    constructor
    · intro h
      cases List.mem_singleton.mp h
      exact .leaf rfl
    · intro h
      cases h with
      | leaf h =>
        cases h
        exact List.mem_singleton_self _
  | .unit _ | .progn _ _ => cases hn
  | .list i items =>
    have hitems : AllReadable items := hn
    have hback := mem_pushes_planBackwards hitems (v := v)
    rw [has_list_iff, ← hback, plan]
    split
    · rename_i hempty
      rw [List.isEmpty_iff.mp hempty]
      rfl
    · rw [pushes_append, pushes_call, List.append_nil]

theorem mem_pushes_planBackwards {ns : List Node} (hns : AllReadable ns) {v : Value} :
    v ∈ pushes (planBackwards ns) ↔ ∃ n ∈ ns, n.Has v := by
  match ns with
  | [] => simp [planBackwards, pushes]
  | n :: ns =>
    rw [planBackwards, pushes_append, List.mem_append, mem_pushes_planBackwards hns.2,
      mem_pushes_plan hns.1, List.exists_mem_cons_iff, or_comm]

end

/-- What a compiler emits for programs in order. -/
def emissions (ns : List Node) : List Emission := ns.flatMap fun n => n.items.flatMap plan

theorem mem_pushes_flatMap {α : Type} {f : α → List Emission} {as : List α} {v : Value} :
    v ∈ pushes (as.flatMap f) ↔ ∃ a ∈ as, v ∈ pushes (f a) := by
  induction as with
  | nil => simp [pushes]
  | cons a as ih => simp [ih]

theorem mem_pushes_emissions {ns : List Node} (h : ∀ n ∈ ns, AllReadable n.items) {v : Value} :
    v ∈ pushes (emissions ns) ↔ ∃ n ∈ ns, ∃ item ∈ n.items, item.Has v := by
  unfold emissions
  rw [mem_pushes_flatMap]
  refine exists_congr fun n => and_congr_right fun hn => ?_
  rw [mem_pushes_flatMap]
  exact exists_congr fun item => and_congr_right fun hitem =>
    mem_pushes_plan ((h n hn).readable item hitem)

/-! ## 3. Pool, index and code -/

section Distinct

variable {α : Type} [BEq α] [LawfulBEq α] {a : α} {as : List α}

theorem eraseDups_concat_of_mem (h : a ∈ as) : (as ++ [a]).eraseDups = as.eraseDups := by
  have hnone : [a].removeAll as = [] := by simp [List.removeAll, h]
  rw [List.eraseDups_append, hnone, List.eraseDups_nil, List.append_nil]

theorem eraseDups_concat_of_not_mem (h : a ∉ as) :
    (as ++ [a]).eraseDups = as.eraseDups ++ [a] := by
  have hsame : [a].removeAll as = [a] := by simp [List.removeAll, h]
  rw [List.eraseDups_append, hsame]
  rfl

end Distinct

/-- The instruction is that of the emission: a push refers to the very constant asked for. -/
def Points (pool : Array Value) (i : Instruction) : Emission → Prop
  | .push v => ∃ k : Nat, i = ⟨Opcode.const, k⟩ ∧ pool[k]? = some v
  | .call n => i = ⟨Opcode.call, n⟩

theorem Points.mono {pool pool' : Array Value} (h : pool.toList <+: pool'.toList)
    {i : Instruction} {e : Emission} (hi : Points pool i e) : Points pool' i e := by
  cases e with
  | push v =>
    obtain ⟨k, hk, hv⟩ := hi
    exact ⟨k, hk, getElem?_of_prefix h hv⟩
  | call n => exact hi

/-- No two of the constants have one hash, but those of the same kind and source form. -/
def Separates (hash : Text → UInt64) (vs : List Value) : Prop :=
  ∀ v ∈ vs, ∀ w ∈ vs, hash v.key = hash w.key → v.identity = w.identity

instance (hash : Text → UInt64) (vs : List Value) : Decidable (Separates hash vs) :=
  inferInstanceAs (Decidable (∀ v ∈ vs, ∀ w ∈ vs, _ → _))

/-- **How a compiler stands after emissions.** Its pool has the constants that were asked for, once
    each and in order of first use; its index knows all of the pool; and its code has one
    instruction for each emission, with the constant asked for. -/
structure Compiler.Records (hash : Text → UInt64) (t : Compiler) (es : List Emission) : Prop where
  pool : t.script.constants.toList.map Value.identity = ((pushes es).map Value.identity).eraseDups
  asked : ∀ v ∈ t.script.constants.toList, v ∈ pushes es
  index : ∀ key k, t.index.lookup key = some k ↔
    ∃ v, t.script.constants[k]? = some v ∧ hash v.key = key
  code : List.Forall₂ (Points t.script.constants) t.script.code.toList es

namespace Compiler

variable {hash : Text → UInt64} {t : Compiler} {es : List Emission} {v : Value}

theorem find?_of_lookup {k : Nat} (hk : t.index.lookup (hash v.key) = some k)
    (hv : t.script.constants[k]? = some v) (hself : v.equal v = true) :
    t.find? hash v = some k := by
  unfold find?
  simp only [hk, hv, hself, if_true]

theorem find?_of_not_indexed (h : t.index.lookup (hash v.key) = none) : t.find? hash v = none := by
  unfold find?
  rw [h]

namespace Records

theorem empty (hash : Text → UInt64) : Compiler.empty.Records hash [] where
  pool := rfl
  asked v hv := absurd hv List.not_mem_nil
  index key k := by simp [Compiler.empty, Script.empty]
  code := .nil

/-- An instruction more, and what the emission for it asks for is in the pool. -/
theorem emit (h : t.Records hash es) {e : Emission} {op : UInt8} {arg : Int}
    (hpoints : Points t.script.constants ⟨op, arg⟩ e)
    (hknown : ((pushes (es ++ [e])).map Value.identity).eraseDups =
      ((pushes es).map Value.identity).eraseDups) :
    (t.emit op arg).Records hash (es ++ [e]) where
  pool := h.pool.trans hknown.symm
  asked v hv := by
    rw [pushes_append]
    exact List.mem_append_left _ (h.asked v hv)
  index := h.index
  code := by
    show List.Forall₂ (Points t.script.constants) (t.script.code.push ⟨op, arg⟩).toList _
    rw [Array.toList_push]
    exact List.rel_append h.code (.cons hpoints .nil)

theorem call (h : t.Records hash es) (n : Nat) :
    (t.emit Opcode.call n).Records hash (es ++ [.call n]) := by
  refine h.emit rfl ?_
  rw [pushes_append, pushes_call, List.append_nil]

/-- A constant that was asked for before is in the pool, and the index has its number. -/
theorem indexed (h : t.Records hash es) (hconst : ∀ w ∈ pushes es, w.Constant) (hv : v.Constant)
    (hknown : v.identity ∈ (pushes es).map Value.identity) :
    ∃ k, t.script.constants[k]? = some v ∧ t.index.lookup (hash v.key) = some k := by
  rw [← List.mem_eraseDups, ← h.pool] at hknown
  obtain ⟨w, hw, hidentity⟩ := List.mem_map.mp hknown
  obtain rfl := (hconst w (h.asked w hw)).eq_of_identity hv hidentity
  obtain ⟨k, hk⟩ := List.mem_iff_getElem?.mp hw
  rw [Array.getElem?_toList] at hk
  exact ⟨k, hk, (h.index _ _).mpr ⟨w, hk, rfl⟩⟩

/-- The index does not know a constant that was never asked for: nothing else has its hash. -/
theorem not_indexed (h : t.Records hash es) (hsep : Separates hash (pushes es ++ [v]))
    (hnew : v.identity ∉ (pushes es).map Value.identity) :
    t.index.lookup (hash v.key) = none := by
  refine Option.eq_none_iff_forall_ne_some.mpr fun k hk => hnew ?_
  obtain ⟨w, hw, hhash⟩ := (h.index _ _).mp hk
  have hasked : w ∈ pushes es := h.asked w (Array.mem_toList_iff.mpr (Array.mem_of_getElem? hw))
  have hidentity : w.identity = v.identity :=
    hsep w (List.mem_append_left _ hasked) v (List.mem_append_right _ List.mem_cons_self) hhash
  exact hidentity ▸ List.mem_map_of_mem hasked

/-- The index after a constant that it did not know. -/
theorem lookup_add (h : t.Records hash es) (hnone : t.index.lookup (hash v.key) = none)
    (key : UInt64) (k : Nat) : (t.add hash v).index.lookup key = some k ↔
      ∃ w, (t.script.constants.push v)[k]? = some w ∧ hash w.key = key := by
  have hindex : (t.add hash v).index = t.index ++ [(hash v.key, t.script.constants.size)] := by
    show (if (t.index.lookup (hash v.key)).isSome then t.index else _) = _
    rw [hnone]
    rfl
  rw [hindex, List.lookup_append, Option.or_eq_some_iff, h.index]
  constructor
  · rintro (⟨w, hw, hkey⟩ | ⟨-, hlast⟩)
    · have hlt : k < t.script.constants.size := (Array.getElem?_eq_some_iff.mp hw).1
      refine ⟨w, ?_, hkey⟩
      rw [Array.getElem?_push, if_neg (Nat.ne_of_lt hlt)]
      exact hw
    · rw [List.lookup_cons] at hlast
      split at hlast
      · rename_i hkey
        cases hlast
        exact ⟨v, Array.getElem?_push_size, (eq_of_beq hkey).symm⟩
      · cases hlast
  · rintro ⟨w, hw, hkey⟩
    rw [Array.getElem?_push] at hw
    split at hw
    · rename_i hk
      cases hw
      subst hk hkey
      exact .inr ⟨hnone, by simp⟩
    · exact .inl ⟨w, hw, hkey⟩

/-- **A constant that is asked for the first time goes to the end of the pool.** -/
theorem add (h : t.Records hash es) (hnone : t.index.lookup (hash v.key) = none)
    (hnew : v.identity ∉ (pushes es).map Value.identity) :
    ((t.add hash v).emit Opcode.const t.script.constants.size).Records hash (es ++ [.push v]) where
  pool := by
    show (t.script.constants.push v).toList.map Value.identity = _
    rw [Array.toList_push, List.map_append, h.pool, pushes_append, List.map_append]
    exact (eraseDups_concat_of_not_mem hnew).symm
  asked w hw := by
    rw [pushes_append]
    have hw' : w ∈ (t.script.constants.push v).toList := hw
    rw [Array.toList_push] at hw'
    exact List.mem_append.mpr ((List.mem_append.mp hw').imp_left (h.asked w))
  index := h.lookup_add hnone
  code := by
    have hgrows : t.script.constants.toList <+: (t.script.constants.push v).toList := by
      rw [Array.toList_push]
      exact List.prefix_append _ _
    show List.Forall₂ (Points (t.script.constants.push v)) (t.script.code.push _).toList _
    rw [Array.toList_push]
    refine List.rel_append (h.code.imp fun i e hi => hi.mono hgrows) (.cons ?_ .nil)
    exact ⟨t.script.constants.size, rfl, Array.getElem?_push_size⟩

/-- **One emission keeps pool, index and code together.** -/
theorem perform (h : t.Records hash es) {e : Emission}
    (hconst : ∀ w ∈ pushes (es ++ [e]), w.Constant)
    (hsep : Separates hash (pushes (es ++ [e]))) :
    (t.perform hash e).Records hash (es ++ [e]) := by
  cases e with
  | call n => exact h.call n
  | push v =>
    rw [pushes_append, pushes_push] at hconst hsep
    obtain ⟨hearlier, hv⟩ := List.forall_mem_append.mp hconst
    have hv : v.Constant := hv v List.mem_cons_self
    show (t.constant hash v).Records hash _
    by_cases hknown : v.identity ∈ (pushes es).map Value.identity
    · obtain ⟨k, hk, hlookup⟩ := h.indexed hearlier hv hknown
      rw [constant_found hash (find?_of_lookup hlookup hk hv.equal_self)]
      refine h.emit ⟨k, rfl, hk⟩ ?_
      rw [pushes_append, List.map_append]
      exact eraseDups_concat_of_mem hknown
    · have hnone := h.not_indexed hsep hknown
      rw [constant_new hash (find?_of_not_indexed hnone)]
      exact h.add hnone hknown

theorem performAll (h : t.Records hash es) {fs : List Emission}
    (hconst : ∀ w ∈ pushes (es ++ fs), w.Constant) (hsep : Separates hash (pushes (es ++ fs))) :
    (t.performAll hash fs).Records hash (es ++ fs) := by
  induction fs generalizing t es with
  | nil =>
    rw [List.append_nil]
    exact h
  | cons e fs ih =>
    rw [List.append_cons] at hconst hsep ⊢
    have hfirst (w : Value) (hw : w ∈ pushes (es ++ [e])) : w ∈ pushes (es ++ [e] ++ fs) := by
      rw [pushes_append]
      exact List.mem_append_left _ hw
    exact ih (h.perform (fun w hw => hconst w (hfirst w hw))
      fun v hv w hw => hsep v (hfirst v hv) w (hfirst w hw)) hconst hsep

/-- The pool holds what was asked for. -/
theorem mem_pool_iff (h : t.Records hash es) (hconst : ∀ w ∈ pushes es, w.Constant) :
    v ∈ t.script.constants.toList ↔ v ∈ pushes es := by
  refine ⟨h.asked v, fun hv => ?_⟩
  obtain ⟨k, hk, -⟩ := h.indexed hconst (hconst v hv) (List.mem_map_of_mem hv)
  exact Array.mem_toList_iff.mpr (Array.mem_of_getElem? hk)

/-- What the index knows it knows by one number, so that nothing is in the pool twice. -/
theorem nodup (h : t.Records hash es) :
    (t.script.constants.toList.map Value.identity).Nodup := by
  refine List.nodup_iff_getElem?_ne_getElem?.mpr fun i j hij hj hsame => ?_
  rw [List.length_map] at hj
  rw [List.getElem?_map, List.getElem?_map, List.getElem?_eq_getElem hj, Option.map_some] at hsame
  obtain ⟨v, hv, hidentity⟩ := Option.map_eq_some_iff.mp hsame
  have hw : t.script.constants[j]? = some t.script.constants.toList[j] := by
    rw [← Array.getElem?_toList, List.getElem?_eq_getElem hj]
  rw [Array.getElem?_toList] at hv
  have hi := (h.index (hash v.key) i).mpr ⟨v, hv, rfl⟩
  have hj := (h.index (hash v.key) j).mpr ⟨_, hw, by rw [Value.key_of_identity hidentity]⟩
  exact absurd (Option.some.inj (hi.symm.trans hj)) (Nat.ne_of_lt hij)

end Records

end Compiler

/-! ## 4. Programs one after the other -/

/-- The compiler after programs in order, if it accepts all of them. -/
def Compiler.acceptAll (hash : Text → UInt64) : Compiler → List Node → Option Compiler
  | t, [] => some t
  | t, n :: ns =>
    match compileProgram hash n t with
    | .ok _ t' => t'.acceptAll hash ns
    | .error _ _ => none

theorem performAll_of_acceptAll {hash : Text → UInt64} {t t' : Compiler} {ns : List Node}
    (h : t.acceptAll hash ns = some t') : t' = t.performAll hash (emissions ns) := by
  induction ns generalizing t with
  | nil =>
    cases h
    rfl
  | cons n ns ih =>
    unfold Compiler.acceptAll at h
    split at h
    · rename_i z t'' hn
      obtain ⟨-, rfl⟩ := performAll_of_compileProgram hn
      rw [ih h, ← Compiler.performAll_append]
      rfl
    · cases h

/-- What instructions push is what was asked for, in order. -/
theorem filterMap_operand? {z : Script} {code : List Instruction} {es : List Emission}
    (h : List.Forall₂ (Points z.constants) code es) : code.filterMap z.operand? = pushes es := by
  induction h with
  | nil => rfl
  | @cons i e code es hi _ ih =>
    cases e with
    | push v =>
      obtain ⟨k, rfl, hv⟩ := hi
      have hoperand : z.operand? ⟨Opcode.const, k⟩ = some v := by simp [Script.operand?, hv]
      rw [List.filterMap_cons_some hoperand, ih]
      rfl
    | call n =>
      have hoperand : z.operand? i = none := by
        rw [show i = ⟨Opcode.call, n⟩ from hi]
        simp [Script.operand?, Opcode.call, Opcode.const]
      rw [List.filterMap_cons_none hoperand, ih]
      rfl

theorem allReadable_of_sources {sources : List Text} {ns : List Node}
    (h : List.Forall₂ (fun src n => parse src = .ok n) sources ns) :
    ∀ n ∈ ns, AllReadable n.items := by
  induction h with
  | nil => exact fun n hn => absurd hn List.not_mem_nil
  | cons hn _ ih => exact List.forall_mem_cons.mpr ⟨allReadable_of_parse hn, ih⟩

/-- **The pool has every constant once, in order of first use.** Programs are read and accepted one
    after the other by one compiler, and no two of their constants that differ in kind or source
    form have one hash. Then
    * no two constants of the pool have the same kind and source form;
    * the pool holds the literals and atoms that occur in the programs, and nothing else;
    * its order is that in which the instructions first push its constants;
    * each instruction was emitted in its turn, and refers to the very constant it was emitted
      for. -/
theorem pool_by_first_use {hash : Text → UInt64} {sources : List Text} {ns : List Node}
    {t : Compiler} (hread : List.Forall₂ (fun src n => parse src = .ok n) sources ns)
    (haccepts : Compiler.empty.acceptAll hash ns = some t)
    (hsep : Separates hash (pushes (emissions ns))) :
    (t.script.constants.toList.map Value.identity).Nodup ∧
    (∀ v, v ∈ t.script.constants.toList ↔ ∃ n ∈ ns, ∃ item ∈ n.items, item.Has v) ∧
    t.script.constants.toList.map Value.identity =
      ((t.script.code.toList.filterMap t.script.operand?).map Value.identity).eraseDups ∧
    List.Forall₂ (Points t.script.constants) t.script.code.toList (emissions ns) := by
  have hreadable := allReadable_of_sources hread
  have hconst (v : Value) (hv : v ∈ pushes (emissions ns)) : v.Constant := by
    obtain ⟨n, hn, item, hitem, hhas⟩ := (mem_pushes_emissions hreadable).mp hv
    exact hhas.constant ((hreadable n hn).readable item hitem)
  have hrecords : t.Records hash (emissions ns) := by
    rw [performAll_of_acceptAll haccepts]
    exact (Compiler.Records.empty hash).performAll hconst hsep
  refine ⟨hrecords.nodup, fun v => ?_, ?_, hrecords.code⟩
  · rw [hrecords.mem_pool_iff hconst, mem_pushes_emissions hreadable]
  · rw [filterMap_operand? hrecords.code]
    exact hrecords.pool

/-- A program with both zeros, and one that has them and a name again. -/
def zeroSource : Text := "(f 0 -0)"

def zeroSourceLater : Text := "'0 (-0 f \"f\")"

theorem pool_by_first_use_zeros : ∃ n m t,
    parse zeroSource = .ok n ∧ parse zeroSourceLater = .ok m ∧
    Compiler.empty.acceptAll Blake2b.sum [n, m] = some t ∧
    Separates Blake2b.sum (pushes (emissions [n, m])) ∧
    t.script.constants.toList.map Value.describe =
      ["number -0", "number 0", "atom f", "string \"f\""].map Text.ofString ∧
    t.script.code.toList.map Instruction.text = ["CONST 0", "CONST 1", "CONST 2", "CALL 2",
      "CONST 1", "CONST 3", "CONST 2", "CONST 0", "CALL 2"] ∧
    (t.script.constants.toList.map Value.identity).Nodup ∧
    List.Forall₂ (Points t.script.constants) t.script.code.toList (emissions [n, m]) := by
  have hall : ((parse zeroSource).toOption.bind fun n =>
      (parse zeroSourceLater).toOption.bind fun m =>
      (Compiler.empty.acceptAll Blake2b.sum [n, m]).map fun t =>
        (decide (Separates Blake2b.sum (pushes (emissions [n, m]))),
          t.script.constants.toList.map Value.describe,
          t.script.code.toList.map Instruction.text)) =
      some (true, ["number -0", "number 0", "atom f", "string \"f\""].map Text.ofString,
        ["CONST 0", "CONST 1", "CONST 2", "CALL 2", "CONST 1", "CONST 3", "CONST 2", "CONST 0",
          "CALL 2"]) := by decide +kernel
  obtain ⟨n, hn, hall⟩ := Option.bind_eq_some_iff.mp hall
  obtain ⟨m, hm, hall⟩ := Option.bind_eq_some_iff.mp hall
  obtain ⟨t, ht, hall⟩ := Option.map_eq_some_iff.mp hall
  obtain ⟨hsep, hall⟩ := Prod.mk.inj hall
  obtain ⟨hpool, hcode⟩ := Prod.mk.inj hall
  have hn := eq_ok_of_toOption hn
  have hm := eq_ok_of_toOption hm
  have hsep := of_decide_eq_true hsep
  have hread : List.Forall₂ (fun src n => parse src = .ok n) [zeroSource, zeroSourceLater]
      [n, m] := .cons hn (.cons hm .nil)
  obtain ⟨hnodup, -, -, hpoints⟩ := pool_by_first_use hread ht hsep
  exact ⟨n, m, t, hn, hm, ht, hsep, hpool, hcode, hnodup, hpoints⟩

end SmallLisp
