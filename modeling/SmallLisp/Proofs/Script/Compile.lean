import Mathlib.Data.List.Forall2
import SmallLisp.Script.Compile

/-!
# What a compiler emits

Compilation interleaves two things: a walk over the syntax tree, which fixes what is pushed and
called and in which order, and the pool of constants, in which each pushed constant is found or
added. Here the two are taken apart.

* `Node.plan` is the walk: the emissions of a node, which depend on nothing else.
* `Compiler.perform` is one emission. A compilation performs its plan, or the beginning of it if it
  is refused (`performs_compile`, `performAll_of_compileProgram`).
* `performAll_spec`: emissions become instructions one to one (`Realizes`), and the pool and the
  code only grow.
-/

namespace SmallLisp

/-! ## 1. Plans -/

/-- What a compiler emits: the push of a constant, or a call with so many arguments. -/
inductive Emission where
  | push (v : Value)
  | call (n : Nat)

namespace Node

mutual

/-- The emissions of an expression. -/
def plan : Node → List Emission
  | number _ x => [.push (.number x)]
  | string _ text => [.push (.string text)]
  | bool _ b => [.push (.bool b)]
  | atom _ name => [.push (.atom name Loc.unknown)]
  | list _ items => if items.isEmpty then [] else planBackwards items ++ [.call (items.length - 1)]
  | unit _ | progn _ _ => []

/-- The emissions of expressions from the last to the first. -/
def planBackwards : List Node → List Emission
  | [] => []
  | n :: ns => planBackwards ns ++ n.plan

end

end Node

namespace Compiler

/-- Makes one emission. -/
def perform (hash : Text → UInt64) (t : Compiler) : Emission → Compiler
  | .push v => t.constant hash v
  | .call n => t.emit Opcode.call n

/-- Makes emissions in order. -/
def performAll (hash : Text → UInt64) (t : Compiler) (es : List Emission) : Compiler :=
  es.foldl (perform hash) t

theorem performAll_append (hash : Text → UInt64) (t : Compiler) (es fs : List Emission) :
    t.performAll hash (es ++ fs) = (t.performAll hash es).performAll hash fs :=
  List.foldl_append

end Compiler

/-- The compilation makes these emissions if it succeeds, and some emissions in any case. -/
def Performs (hash : Text → UInt64) (act : CompileM Unit) (es : List Emission) : Prop :=
  ∀ t, match act t with
    | .ok _ t' => t' = t.performAll hash es
    | .error _ t' => ∃ fs, t' = t.performAll hash fs

namespace Performs

variable {hash : Text → UInt64}

theorem pure : Performs hash (Pure.pure ()) [] := fun _ => rfl

theorem refuse (e : CompileError) (es : List Emission) : Performs hash (throw e) es :=
  fun _ => ⟨[], rfl⟩

theorem push (v : Value) : Performs hash (modify (·.constant hash v)) [.push v] := fun _ => rfl

theorem call (n : Nat) : Performs hash (modify (·.emit Opcode.call n)) [.call n] := fun _ => rfl

theorem andThen {a b : CompileM Unit} {es fs : List Emission} (ha : Performs hash a es)
    (hb : Performs hash b fs) : Performs hash (a >>= fun _ => b) (es ++ fs) := by
  intro t
  have hat := ha t
  show match EStateM.bind a (fun _ => b) t with
    | .ok _ t' => t' = t.performAll hash (es ++ fs)
    | .error _ t' => ∃ gs, t' = t.performAll hash gs
  unfold EStateM.bind
  cases hr : a t with
  | error e t' =>
    rw [hr] at hat
    exact hat
  | ok u t' =>
    rw [hr] at hat
    have hbt := hb t'
    dsimp only at hat ⊢
    subst hat
    cases hr' : b (t.performAll hash es) with
    | ok u t' =>
      rw [hr'] at hbt
      rw [Compiler.performAll_append]
      exact hbt
    | error e t' =>
      rw [hr'] at hbt
      obtain ⟨gs, hgs⟩ := hbt
      exact ⟨es ++ gs, by rw [Compiler.performAll_append]; exact hgs⟩

end Performs

section

variable (hash : Text → UInt64)

mutual

/-- **A compilation performs its plan.** -/
theorem performs_compile (n : Node) : Performs hash (n.compile hash) n.plan := by
  match n with
  | .number _ _ | .string _ _ | .bool _ _ => exact .push _
  | .unit i =>
    unfold Node.compile
    split
    · exact .refuse _ _
    · exact .pure
  | .atom i name =>
    unfold Node.compile
    split
    · exact .refuse _ _
    · exact .push _
  | .progn i items =>
    unfold Node.compile
    split
    · exact .refuse _ _
    · exact .refuse _ _
  | .list i items =>
    unfold Node.compile Node.plan
    split
    · exact .refuse _ _
    · split
      · exact .pure
      · rename_i hitems
        have hcount : (items.length : Int) - 1 = ((items.length - 1 : Nat) : Int) := by
          have := List.length_pos_iff.mpr (mt List.isEmpty_iff.mpr hitems)
          omega
        rw [hcount]
        exact (performs_compileBackwards items).andThen (.call (items.length - 1))

theorem performs_compileBackwards (ns : List Node) :
    Performs hash (Node.compileBackwards hash ns) (Node.planBackwards ns) := by
  match ns with
  | [] => exact .pure
  | n :: ns => exact (performs_compileBackwards ns).andThen (performs_compile n)

end

theorem performs_compileAll (ns : List Node) :
    Performs hash (compileAll hash ns) (ns.flatMap Node.plan) := by
  induction ns with
  | nil => exact .pure
  | cons n ns ih => exact (performs_compile hash n).andThen ih

end

/-! ## 2. Programs one after the other -/

namespace Compiler

variable (hash : Text → UInt64)

/-- The compiler after a program, whether it was accepted or not. -/
def feed (t : Compiler) (n : Node) : Compiler :=
  match compileProgram hash n t with
  | .ok _ t' => t'
  | .error _ t' => t'

/-- The compiler after programs in order. -/
def feedAll (t : Compiler) (ns : List Node) : Compiler := ns.foldl (feed hash) t

end Compiler

section

variable {hash : Text → UInt64}

theorem compileProgram_progn (i : NodeInfo) (items : List Node) (t : Compiler) :
    compileProgram hash (.progn i items) t = match compileAll hash items t with
      | .ok _ t' => .ok t'.script t'
      | .error e t' => .error e t' := by
  show EStateM.bind (compileAll hash items) _ t = _
  unfold EStateM.bind
  cases compileAll hash items t <;> rfl

/-- An accepted program is performed, and its script is that of the compiler. -/
theorem performAll_of_compileProgram {n : Node} {t t' : Compiler} {z : Script}
    (h : compileProgram hash n t = .ok z t') :
    z = t'.script ∧ t' = t.performAll hash (n.items.flatMap Node.plan) := by
  cases n with
  | progn i items =>
    have hall := performs_compileAll hash items t
    rw [compileProgram_progn] at h
    cases hr : compileAll hash items t with
    | ok u t'' =>
      rw [hr] at h hall
      cases h
      exact ⟨rfl, hall⟩
    | error e t'' =>
      rw [hr] at h
      cases h
  | _ => cases h

theorem exists_performAll_feed (hash : Text → UInt64) (t : Compiler) (n : Node) :
    ∃ es, t.feed hash n = t.performAll hash es := by
  unfold Compiler.feed
  cases n with
  | progn i items =>
    have hall := performs_compileAll hash items t
    rw [compileProgram_progn]
    cases hr : compileAll hash items t with
    | ok u t' =>
      rw [hr] at hall
      exact ⟨_, hall⟩
    | error e t' =>
      rw [hr] at hall
      exact hall
  | _ => exact ⟨[], rfl⟩

theorem exists_performAll_feedAll (hash : Text → UInt64) (t : Compiler) (ns : List Node) :
    ∃ es, t.feedAll hash ns = t.performAll hash es := by
  induction ns generalizing t with
  | nil => exact ⟨[], rfl⟩
  | cons n ns ih =>
    obtain ⟨es, hes⟩ := exists_performAll_feed hash t n
    obtain ⟨fs, hfs⟩ := ih (t.feed hash n)
    refine ⟨es ++ fs, ?_⟩
    rw [Compiler.performAll_append, ← hes]
    exact hfs

end

/-! ## 3. The pool -/

/-- The instruction does what the emission asks for. The constant that it pushes is the one asked
    for, or one that equals it. -/
def Realizes (pool : Array Value) (i : Instruction) : Emission → Prop
  | .push v => ∃ (k : Nat) (w : Value), i = ⟨Opcode.const, k⟩ ∧ pool[k]? = some w ∧
      (w = v ∨ w.equal v = true)
  | .call n => i = ⟨Opcode.call, n⟩

theorem getElem?_of_prefix {a b : Array Value} (h : a.toList <+: b.toList) {k : Nat} {w : Value}
    (hk : a[k]? = some w) : b[k]? = some w := by
  obtain ⟨more, hmore⟩ := h
  rw [← Array.getElem?_toList] at hk ⊢
  have hlt : k < a.toList.length := (List.getElem?_eq_some_iff.mp hk).1
  rw [← hmore, List.getElem?_append_left hlt]
  exact hk

theorem Realizes.mono {pool pool' : Array Value} (h : pool.toList <+: pool'.toList)
    {i : Instruction} {e : Emission} (hi : Realizes pool i e) : Realizes pool' i e := by
  cases e with
  | push v =>
    obtain ⟨k, w, hk, hw, hv⟩ := hi
    exact ⟨k, w, hk, getElem?_of_prefix h hw, hv⟩
  | call n => exact hi

namespace Compiler

variable (hash : Text → UInt64)

theorem find?_spec {t : Compiler} {v : Value} {k : Nat} (h : t.find? hash v = some k) :
    ∃ w, t.script.constants[k]? = some w ∧ w.equal v = true := by
  unfold find? at h
  split at h
  · cases h
  · split at h
    · cases h
    · rename_i w hw
      split at h
      · rename_i heq
        cases h
        exact ⟨w, hw, heq⟩
      · cases h

theorem constant_found {t : Compiler} {v : Value} {k : Nat} (h : t.find? hash v = some k) :
    t.constant hash v = t.emit Opcode.const k := by
  unfold constant
  rw [h]

theorem constant_new {t : Compiler} {v : Value} (h : t.find? hash v = none) :
    t.constant hash v = (t.add hash v).emit Opcode.const t.script.constants.size := by
  unfold constant
  rw [h]

/-- **One emission adds one instruction, and to the pool at most.** -/
theorem perform_spec (t : Compiler) (e : Emission) : ∃ i,
    (t.perform hash e).script.code.toList = t.script.code.toList ++ [i] ∧
      t.script.constants.toList <+: (t.perform hash e).script.constants.toList ∧
      Realizes (t.perform hash e).script.constants i e := by
  cases e with
  | call n => exact ⟨_, Array.toList_push, List.prefix_rfl, rfl⟩
  | push v =>
    unfold perform
    cases hk : t.find? hash v with
    | some k =>
      obtain ⟨w, hw, hv⟩ := find?_spec hash hk
      dsimp only
      rw [constant_found hash hk]
      exact ⟨_, Array.toList_push, List.prefix_rfl, k, w, rfl, hw, .inr hv⟩
    | none =>
      dsimp only
      rw [constant_new hash hk]
      refine ⟨_, Array.toList_push, ?_, t.script.constants.size, v, rfl, ?_, .inl rfl⟩
      · show _ <+: (t.script.constants.push v).toList
        rw [Array.toList_push]
        exact List.prefix_append _ _
      · exact Array.getElem?_push_size

/-- **Emissions become instructions one to one**, and what is in the pool stays in its place. -/
theorem performAll_spec (t : Compiler) (es : List Emission) : ∃ code,
    (t.performAll hash es).script.code.toList = t.script.code.toList ++ code ∧
      t.script.constants.toList <+: (t.performAll hash es).script.constants.toList ∧
      List.Forall₂ (Realizes (t.performAll hash es).script.constants) code es := by
  induction es generalizing t with
  | nil => exact ⟨[], (List.append_nil _).symm, List.prefix_rfl, .nil⟩
  | cons e es ih =>
    obtain ⟨i, hcode, hpool, hi⟩ := perform_spec hash t e
    obtain ⟨code, hcode', hpool', hes⟩ := ih (t.perform hash e)
    refine ⟨i :: code, ?_, hpool.trans hpool', .cons (hi.mono hpool') hes⟩
    show ((t.perform hash e).performAll hash es).script.code.toList = _
    rw [hcode', hcode, List.append_assoc, List.singleton_append]

end Compiler

/-- What an instruction pushes does not change when constants are added. -/
theorem operand?_of_prefix {z z' : Script} (h : z.constants.toList <+: z'.constants.toList)
    {i : Instruction} {e : Emission} (hi : Realizes z.constants i e) :
    z'.operand? i = z.operand? i := by
  cases e with
  | call n =>
    cases hi
    rfl
  | push v =>
    obtain ⟨k, w, rfl, hw, -⟩ := hi
    have hw' := getElem?_of_prefix h hw
    simp [Script.operand?, hw, hw']

end SmallLisp
