import SmallLisp.Prelude.Encoding

/-!
# The evaluator

Evaluation of a form in a frame, and application of a function. A form that is a list is an
application: its head is evaluated, and what that is decides what happens to the rest. A native
function gets the rest as it stands; a closure gets the values, in a new frame inside the frame it
was made in.

`Evaluator.step` says what one level of evaluation does with the evaluator of the level below;
`Evaluator.ofFuel n` has `n` levels. Only nesting uses up fuel, so that any evaluation that ends
needs no more than the depth of its deepest call.
-/

namespace SmallLisp

namespace Evaluator

open EvalM

variable (ev : Evaluator) (env : FrameId)

/-! ## 1. Native functions -/

/-- A function of the language at unevaluated arguments. -/
def runPrimitive (p : Primitive) (args : List Value) : EvalM Value :=
  let op : Text := p.name
  match p with
  | .conditional => ev.conditional env op args
  | .define => ev.define env op args
  | .assign => ev.assign env op args
  | .lambda => lambda env op args
  | .defun => defun env op args
  | .sequence => ev.evalSequence env args
  | .quote => quote op args
  | .connective .and => ev.connective env op false args
  | .connective .or => ev.connective env op true args
  | .eval => ev.evalTwice env op args
  | .read => ev.read env op args
  | .apply => ev.applyTo env op args
  | .arith a => ev.arithmetic env a args
  | .compare c => ev.comparison env c op args
  | .not => ev.negation env op args
  | .list => do
    let vals ← ev.evalAll env args
    pure (newList vals)
  | .cons => ev.cons env op args
  | .car | .first => ev.first env op args
  | .cdr | .rest => ev.rest env op args
  | .len => ev.length env op args
  | .isEmpty => ev.isEmpty env op args
  | .str => ev.str env args
  | .type => ev.typeOf env op args
  | .print => ev.printing env [] args
  | .println => ev.printing env "\n" args
  | .interchange i => ev.interchange env i op args
  | .hash => ev.hash env op args
  | .dump => ev.dump env op args

/-- A native function at unevaluated arguments. -/
def runNative (f : Native) (args : List Value) : EvalM Value :=
  match f with
  | .primitive p => ev.runPrimitive env p args
  | .probe name => do
    modify fun s => s.record (.probe name s.depth (s.store.depth env) (Value.joined args))
    pure (.number (Float.ofNat args.length))
  | .surroundings name => do
    let s ← get
    pure (.string (s.store.listing env name false))

/-! ## 2. Closures -/

/-- How many arguments a closure takes, in words. -/
def argumentCount (n : Nat) : String := if n = 1 then "1 argument" else s!"{n} arguments"

/-- A new frame inside frame `env`, with these bindings. -/
def pushFrame (name : Text) (bindings : List (Text × Value)) : EvalM FrameId := do
  let s ← get
  let (frame, store) := s.store.push env name
  set { s with store := bindings.foldl (fun st (n, v) => st.set frame n v) store }
  pure frame

/-- Runs the body of a closure with its parameters bound to values. -/
def callClosure (name : Text) (params : List Text) (body : List Value) (home : FrameId)
    (vals : List Value) : EvalM Value := do
  let name : Text := if name.isEmpty then "lambda" else name
  if vals.length ≠ params.length then
    raise (.arity name (argumentCount params.length) vals.length)
  let frame ← pushFrame home name (params.zip vals)
  ev.evalSequence frame body

/-! ## 3. Application -/

/-- The error of a call of something that is no function. -/
def notCallable (loc : Loc) (v : Value) : EvalM Value := raise ⟨loc, .illegalCall v.describe⟩

/-- Applies a function to forms. -/
def applyForms (loc : Loc) (f : Value) (args : List Value) : EvalM Value :=
  match f with
  | .native n => observed n.name args (ev.runNative env n args)
  | .closure name params body home => do
    let vals ← ev.evalAll env args
    observed name vals (ev.callClosure name (params.getD []) body home vals)
  | v => notCallable loc v

/-- Applies a function to values. A native function gets them marked as evaluated, so that
    evaluating them again gives the same values. -/
def applyValues (f : Value) (vals : List Value) : EvalM Value :=
  match f with
  | .native n =>
    let args := vals.map (.quote · true)
    observed n.name args (ev.runNative env n args)
  | .closure name params body home =>
    observed name vals (ev.callClosure name (params.getD []) body home vals)
  | v => notCallable Loc.unknown v

/-! ## 4. Forms -/

/-- Evaluates a form. -/
def evalForm (form : Value) : EvalM Value :=
  match form with
  | .atom name loc => do
    match (← get).store.get? env name with
    | some v => pure v
    | none => raise ⟨loc, .undefinedVariable name⟩
  | .quote v _ => pure v
  | .sequence body => ev.evalSequence env body
  | .list [] _ => pure .unit
  | .list (head :: args) loc =>
    nested do
      checkDepth loc
      let f ← ev.eval env head
      located loc (ev.applyForms env loc f args)
  | v => pure v

/-! ## 5. Levels -/

/-- An evaluator that calls `ev` for everything inside. -/
def step : Evaluator where
  eval env form := ev.evalForm env form
  apply env f vals := ev.applyValues env f vals

/-- The evaluator with so many levels. -/
def ofFuel : Nat → Evaluator
  | 0 => ⟨fun _ _ => throw .outOfFuel, fun _ _ _ => throw .outOfFuel⟩
  | n + 1 =>
    ⟨fun env form => (ofFuel n).evalForm env form,
      fun env f vals => (ofFuel n).applyValues env f vals⟩

end Evaluator

end SmallLisp
