import SmallLisp.Eval.Run

/-!
# Evaluation with something around applications

What an evaluation does on its way, which functions it applies, in what sessions, and which calls a
fault leaves, is not recorded in its answer. It is found out by changing what surrounds applications
and comparing the answers.

* `Wrapping`: what surrounds the application of a function, in a call, at values, and where it runs;
* `Wrapping.ofFuel`: the evaluator with so many levels that applies functions in these surroundings;
* `Wrapping.ofFuel_plain`: with the surroundings that evaluation has, it is evaluation.
-/

namespace SmallLisp

open EvalM

/-- What surrounds the application of a function. -/
structure Wrapping where
  /-- Around an application by a call: the call, its function and the application. -/
  call : Value → Value → EvalM Value → EvalM Value
  /-- Around an application to values: the function and the application. -/
  values : Value → EvalM Value → EvalM Value
  /-- Around the run of a function: its name, its arguments and the run. -/
  run : Text → List Value → EvalM Value → EvalM Value

namespace Wrapping

/-- What surrounds applications in evaluation: an error that leaves a call gets its place, and runs
    are told to observers. -/
def plain : Wrapping where
  call form _ act := located form.loc act
  values _ act := act
  run := observed

/-! ## 1. The evaluator -/

section

variable (w : Wrapping) (ev : Evaluator) (env : FrameId)

/-- Applies a function to forms. -/
def applyForms (loc : Loc) (f : Value) (args : List Value) : EvalM Value :=
  match f with
  | .native n => w.run n.name args (ev.runNative env n args)
  | .closure name params body home => do
    let vals ← ev.evalAll env args
    w.run name vals (ev.callClosure name (params.getD []) body home vals)
  | v => Evaluator.notCallable loc v

/-- Applies a function to values. -/
def applyValues (f : Value) (vals : List Value) : EvalM Value :=
  w.values f <| match f with
  | .native n =>
    let args := vals.map (.quote · true)
    w.run n.name args (ev.runNative env n args)
  | .closure name params body home =>
    w.run name vals (ev.callClosure name (params.getD []) body home vals)
  | v => Evaluator.notCallable Loc.unknown v

/-- Evaluates a form. Only calls apply something; what else there is does not depend on what
    surrounds applications. -/
def evalForm (form : Value) : EvalM Value :=
  match form with
  | .list (head :: args) loc =>
    nested do
      checkDepth loc
      let f ← ev.eval env head
      w.call (.list (head :: args) loc) f (w.applyForms ev env loc f args)
  | form => ev.evalForm env form

end

/-- The evaluator with so many levels. -/
def ofFuel (w : Wrapping) : Nat → Evaluator
  | 0 => ⟨fun _ _ => throw .outOfFuel, fun _ _ _ => throw .outOfFuel⟩
  | n + 1 =>
    ⟨fun env form => w.evalForm (w.ofFuel n) env form,
      fun env f vals => w.applyValues (w.ofFuel n) env f vals⟩

/-! ## 2. Functions that run as they do in evaluation -/

section

variable {w : Wrapping} (h : w.run = observed) (ev : Evaluator) (env : FrameId) (f : Value)

include h

theorem applyForms_of_observed (loc : Loc) (args : List Value) :
    w.applyForms ev env loc f args = ev.applyForms env loc f args := by
  unfold applyForms
  rw [h]
  cases f <;> rfl

theorem applyValues_of_observed (vals : List Value) :
    w.applyValues ev env f vals = w.values f (ev.applyValues env f vals) := by
  unfold applyValues
  rw [h]
  cases f <;> rfl

end

theorem evalForm_plain (ev : Evaluator) (env : FrameId) (form : Value) :
    plain.evalForm ev env form = ev.evalForm env form := by
  unfold evalForm
  split
  · simp only [applyForms_of_observed (w := plain) rfl]
    rfl
  · rfl

/-- **With what surrounds applications in evaluation it is evaluation.** -/
theorem ofFuel_plain (n : Nat) : plain.ofFuel n = Evaluator.ofFuel n := by
  induction n with
  | zero => rfl
  | succ n ih =>
    have hvalues (env : FrameId) (f : Value) (vals : List Value) :
        plain.applyValues (Evaluator.ofFuel n) env f vals =
          (Evaluator.ofFuel n).applyValues env f vals :=
      applyValues_of_observed rfl _ env f vals
    unfold ofFuel Evaluator.ofFuel
    rw [ih]
    simp only [evalForm_plain, hvalues]

end Wrapping

end SmallLisp
