import SmallLisp.Eval.Basic

/-!
# Special forms

The functions that decide which of their arguments are evaluated, and when. An argument that `apply`
passes has been evaluated before and is marked so; where a form takes an argument as it stands, the
mark is taken off (`bare`).
-/

namespace SmallLisp

/-- An argument without the mark of one that has been evaluated. -/
def bare : Value → Value
  | .quote v true => v
  | v => v

/-- The names in a list of parameters. -/
def paramNames (op : Text) : List Value → Except EvalError (List Text)
  | [] => .ok []
  | .atom name _ :: more =>
    match paramNames op more with
    | .ok names => .ok (name :: names)
    | .error e => .error e
  | v :: _ => .error (.mismatch op "atom as parameter" v)

/-- The parameters that a value stands for; unit stands for none at all. -/
def params (op : Text) : Value → Except EvalError (Option (List Text))
  | .unit => .ok none
  | .list items _ => (paramNames op items).map some
  | v => .error (.mismatch op "parameter list" v)

/-- The items of a list; unit is the empty list. -/
def listItems (op : Text) : Value → Except EvalError (List Value)
  | .list items _ => .ok items
  | .unit => .ok []
  | v => .error (.mismatch op "list" v)

namespace Evaluator

open EvalM

variable (ev : Evaluator) (env : FrameId)

/-- Binds a name in a frame. -/
def bindName (name : Text) (v : Value) : EvalM Unit :=
  modify fun s => { s with store := s.store.set env name v }

/-- Fails if a frame itself binds a name. -/
def checkUnbound (name : Text) (loc : Loc) : EvalM Unit := do
  if ((← get).store.local? env name).isSome then raise ⟨loc, .redefinition name⟩

/-- `(if c a b)`: the value of `a` or of `b`, as the condition `c` says; without `b`, unit. -/
def conditional (op : Text) (args : List Value) : EvalM Value :=
  let branch (c a : Value) (otherwise : EvalM Value) : EvalM Value := do
    match ← ev.eval env c with
    | .bool true => ev.eval env a
    | .bool false => otherwise
    | v => raise (.mismatch op "boolean condition" v)
  match args with
  | [c, a] => branch c a (pure .unit)
  | [c, a, b] => branch c a (ev.eval env b)
  | _ => raise (.arity op "2 or 3 arguments" args.length)

/-- `(def name form)`: binds a name that the frame does not bind yet. -/
def define (op : Text) : List Value → EvalM Value
  | [target, form] =>
    match bare target with
    | .atom name loc => do
      checkUnbound env name loc
      let v ← ev.eval env form
      bindName env name v
      pure v
    | v => raise (.mismatch op "atom" v)
  | args => raise (.arity op "2 arguments" args.length)

/-- `(set! name form)`: binds a name, whether it is bound or not. -/
def assign (op : Text) : List Value → EvalM Value
  | [target, form] =>
    match bare target with
    | .atom name _ => do
      let v ← ev.eval env form
      bindName env name v
      pure v
    | v => raise (.mismatch op "atom" v)
  | args => raise (.arity op "2 arguments" args.length)

/-- `(lambda params form …)`: a function without a name. -/
def lambda (op : Text) : List Value → EvalM Value
  | [] => raise (.arity op "a parameter list" 0)
  | ps :: body => do
    let names ← ofExcept (params op (bare ps))
    pure (.closure [] names (body.map bare) env)

/-- `(defun name params form …)`: a function with a name, which the frame does not bind yet. -/
def defun (op : Text) : List Value → EvalM Value
  | target :: ps :: body =>
    match bare target with
    | .atom name loc => do
      checkUnbound env name loc
      let names ← ofExcept (params op (bare ps))
      let f := Value.closure name names (body.map bare) env
      bindName env name f
      pure f
    | v => raise (.mismatch op "atom" v)
  | args => raise (.arity op "a name and a parameter list" args.length)

/-- `(quote form)`: the form itself. -/
def quote (op : Text) : List Value → EvalM Value
  | [form] => pure (bare form)
  | args => raise (.arity op "1 argument" args.length)

/-- `(and form …)` and `(or form …)`: evaluation stops at the first operand that equals `stop`. -/
def connective (op : Text) (stop : Bool) : List Value → EvalM Value
  | [] => pure (.bool (!stop))
  | form :: more => do
    match ← ev.eval env form with
    | .bool b => if b = stop then pure (.bool b) else connective op stop more
    | v => raise (.mismatch op "boolean" v)

/-- `(eval form)`: the value of the value of a form. -/
def evalTwice (op : Text) : List Value → EvalM Value
  | [form] => do
    let v ← ev.eval env form
    ev.eval env v
  | args => raise (.arity op "1 argument" args.length)

/-- The form that a text reads as: nothing is unit, one expression is itself, several are a
    sequence. -/
def formOf : List Node → Value
  | [] => .unit
  | [n] => .ofNode n
  | ns => .ofNode (programOf ns)

/-- `(read text)`: the form that a string reads as. -/
def read (op : Text) : List Value → EvalM Value
  | [form] => do
    match ← ev.eval env form with
    | .string src =>
      match parseChars (Utf8.decode src) with
      | .ok ns => pure (formOf ns)
      | .error e => fail (.read e)
    | v => raise (.mismatch op "string" v)
  | args => raise (.arity op "1 argument" args.length)

/-- `(apply f items)`: the value of a function at the items of a list. -/
def applyTo (op : Text) : List Value → EvalM Value
  | [f, items] => do
    let f ← ev.eval env f
    let items ← ev.eval env items
    let vals ← ofExcept (listItems op items)
    ev.apply env f vals
  | args => raise (.arity op "2 arguments" args.length)

end Evaluator

end SmallLisp
