import SmallLisp.Script.Basic

/-!
# The machine that scripts are written for

A script is code for a machine with a stack. `CONST` pushes a constant; `CALL` takes the value on
top and so many values beneath it, and pushes the application. What an application computes is not
the script's affair, so the machine keeps it as a tree (`Tree`).

`Heights` is the same machine when only the height of the stack is looked at. It follows the machine
with trees (`Heights.run_of_run`), and what code adds to the height in all can be read off its
instructions (`Heights.total_of_run`).
-/

namespace SmallLisp

/-! ## 1. Trees on a stack -/

/-- What stands on the stack: a constant, or an application. -/
inductive Tree where
  | const (v : Value)
  | call (head : Tree) (args : List Tree)

/-- Why the machine cannot go on. -/
inductive MachineFault where
  /-- A call finds too few values. -/
  | underflow
  /-- A constant is not in the pool. -/
  | noConstant
  /-- An instruction that is neither a push nor a call. -/
  | unknown
deriving DecidableEq, Repr

/-- Applies the top of the stack to the `n` trees beneath it. -/
def applyTop (n : Nat) : List Tree → Except MachineFault (List Tree)
  | [] => .error .underflow
  | head :: below =>
    if n ≤ below.length then .ok (.call head (below.take n) :: below.drop n)
    else .error .underflow

namespace Script

/-- Executes one instruction. -/
def step (z : Script) (i : Instruction) (stack : List Tree) : Except MachineFault (List Tree) :=
  if i.op = Opcode.const then
    match z.operand? i with
    | some v => .ok (.const v :: stack)
    | none => .error .noConstant
  else if i.op = Opcode.call ∧ 0 ≤ i.arg then applyTop i.arg.toNat stack
  else .error .unknown

/-- Executes instructions in order. -/
def run (z : Script) : List Instruction → List Tree → Except MachineFault (List Tree)
  | [], stack => .ok stack
  | i :: more, stack => (z.step i stack).bind (z.run more)

variable {z : Script}

theorem step_const {k : Nat} {v : Value} (h : z.constants[k]? = some v) (stack : List Tree) :
    z.step ⟨Opcode.const, k⟩ stack = .ok (.const v :: stack) := by
  simp [step, operand?, h]

theorem step_call (head : Tree) (args stack : List Tree) :
    z.step ⟨Opcode.call, args.length⟩ (head :: (args ++ stack))
      = .ok (.call head args :: stack) := by
  simp [step, applyTop, Opcode.call, Opcode.const]

theorem run_append (code more : List Instruction) (stack : List Tree) :
    z.run (code ++ more) stack = (z.run code stack).bind (z.run more) := by
  induction code generalizing stack with
  | nil => rfl
  | cons i code ih =>
    rw [List.cons_append, run, run]
    cases z.step i stack with
    | ok next => exact ih next
    | error e => rfl

/-- A run depends on the pool only through what the code pushes. -/
theorem run_congr {z z' : Script} {code : List Instruction}
    (h : ∀ i ∈ code, z'.operand? i = z.operand? i) (stack : List Tree) :
    z'.run code stack = z.run code stack := by
  induction code generalizing stack with
  | nil => rfl
  | cons i code ih =>
    have hi : z'.step i stack = z.step i stack := by
      unfold step
      rw [h i List.mem_cons_self]
    rw [run, run, hi]
    cases z.step i stack with
    | ok next => exact ih (fun j hj => h j (List.mem_cons_of_mem i hj)) next
    | error e => rfl

end Script

/-! ## 2. Heights -/

namespace Heights

/-- The height of the stack after an instruction: one more after a push; after a call with `n`
    arguments `n + 1` values less and one more, if there are as many. -/
def step (i : Instruction) (height : Nat) : Option Nat :=
  if i.op = Opcode.const then some (height + 1)
  else if i.op = Opcode.call ∧ 0 ≤ i.arg then
    if i.arg.toNat + 1 ≤ height then some (height - (i.arg.toNat + 1) + 1) else none
  else none

/-- The height of the stack after instructions in order. -/
def run : List Instruction → Nat → Option Nat
  | [], height => some height
  | i :: more, height => (step i height).bind (run more)

/-- What an instruction adds to the height. -/
def gain (i : Instruction) : Int := if i.op = Opcode.const then 1 else - i.arg

/-- What code adds to the height in all. -/
def total : List Instruction → Int
  | [] => 0
  | i :: more => gain i + total more

theorem gain_of_step {i : Instruction} {h h' : Nat} (hs : step i h = some h') :
    (h' : Int) = h + gain i := by
  unfold step at hs
  unfold gain
  split at hs
  · rename_i hop
    cases hs
    rw [if_pos hop]
    rfl
  · rename_i hop
    rw [if_neg hop]
    split at hs
    · split at hs
      · cases hs
        omega
      · cases hs
    · cases hs

theorem total_of_run {code : List Instruction} {h h' : Nat} (hr : run code h = some h') :
    (h' : Int) = h + total code := by
  induction code generalizing h with
  | nil =>
    cases hr
    exact (Int.add_zero _).symm
  | cons i code ih =>
    obtain ⟨h₁, hstep, hmore⟩ := Option.bind_eq_some_iff.mp hr
    rw [ih hmore, gain_of_step hstep, total, Int.add_assoc]

/-- The heights follow the machine with trees. -/
theorem step_of_step {z : Script} {i : Instruction} {stack stack' : List Tree}
    (h : z.step i stack = .ok stack') : step i stack.length = some stack'.length := by
  unfold Script.step at h
  unfold step
  split at h
  · rename_i hop
    rw [if_pos hop]
    split at h
    · cases h
      rfl
    · cases h
  · rename_i hop
    rw [if_neg hop]
    split at h
    · rename_i hcall
      rw [if_pos hcall]
      unfold applyTop at h
      split at h
      · cases h
      · rename_i head below
        split at h
        · rename_i hle
          cases h
          rw [if_pos (by simpa using hle)]
          simp
        · cases h
    · cases h

theorem run_of_run {z : Script} {code : List Instruction} {stack stack' : List Tree}
    (h : z.run code stack = .ok stack') : run code stack.length = some stack'.length := by
  induction code generalizing stack with
  | nil =>
    cases h
    rfl
  | cons i code ih =>
    rw [Script.run] at h
    cases hi : z.step i stack with
    | ok next =>
      rw [hi] at h
      exact Option.bind_eq_some_iff.mpr ⟨next.length, step_of_step hi, ih h⟩
    | error e =>
      rw [hi] at h
      cases h

end Heights

end SmallLisp
