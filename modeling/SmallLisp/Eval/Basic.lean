import SmallLisp.Session.Basic
import SmallLisp.Value.Fault

/-!
# Evaluations

An evaluation works on a session and ends with a value, with a fault, or because it was not given
enough fuel. In every case the session goes on as the evaluation left it: what a failed evaluation
printed or bound before it failed stays.

A native function calls back into the evaluator it is run by. What it may use of it is an
`Evaluator`: to evaluate a form in a frame, and to apply a function to values.
-/

namespace SmallLisp

/-- Why an evaluation ended without a value. -/
inductive Stop where
  | fault (f : Fault)
  | outOfFuel

/-- The full wording. -/
def Stop.message : Stop → Text
  | fault f => f.message
  | outOfFuel => "evaluation ran out of fuel"

/-- An evaluation. -/
abbrev EvalM := EStateM Stop Session

namespace EvalM

/-- Ends with a fault. -/
def fail {α : Type} (f : Fault) : EvalM α := throw (.fault f)

/-- Ends with an evaluation error. -/
def raise {α : Type} (e : EvalError) : EvalM α := fail (.eval e)

/-- Goes on with the value of a computation that cannot touch the session. -/
def ofExcept {α : Type} (r : Except EvalError α) : EvalM α :=
  match r with
  | .ok a => pure a
  | .error e => raise e

/-- Gives an evaluation error that has no location this one. -/
def located {α : Type} (loc : Loc) (act : EvalM α) : EvalM α := fun s =>
  match act s with
  | .error (.fault f) s' => .error (.fault (f.locate loc)) s'
  | r => r

/-- Counts as one more application in progress, however it ends. -/
def nested {α : Type} (act : EvalM α) : EvalM α := fun s =>
  match act { s with depth := s.depth + 1 } with
  | .ok a s' => .ok a { s' with depth := s'.depth - 1 }
  | .error e s' => .error e { s' with depth := s'.depth - 1 }

/-- Fails if more applications are in progress than the session allows. -/
def checkDepth (loc : Loc) : EvalM Unit := do
  let s ← get
  if 0 < s.limit ∧ s.limit < s.depth then raise ⟨loc, .depthExceeded s.limit⟩

/-- Tells that the application of a function starts, and that it succeeded if it does. -/
def observed (name : Text) (args : List Value) (act : EvalM Value) : EvalM Value := do
  modify (·.announce name args)
  let v ← act
  modify (·.conclude name v)
  pure v

end EvalM

/-- What a native function may use of the evaluator that runs it. -/
structure Evaluator where
  /-- The value of a form in a frame. -/
  eval : FrameId → Value → EvalM Value
  /-- The value of a function at arguments that have been evaluated. -/
  apply : FrameId → Value → List Value → EvalM Value

namespace Evaluator

/-- The values of forms, from left to right. -/
def evalAll (ev : Evaluator) (env : FrameId) : List Value → EvalM (List Value)
  | [] => pure []
  | form :: more => do
    let v ← ev.eval env form
    let vs ← ev.evalAll env more
    pure (v :: vs)

/-- The value of the last of some forms, all of which are evaluated in order. -/
def evalSequence (ev : Evaluator) (env : FrameId) : List Value → EvalM Value
  | [] => pure .unit
  | [form] => ev.eval env form
  | form :: next :: more => do
    let _ ← ev.eval env form
    ev.evalSequence env (next :: more)

end Evaluator

end SmallLisp
