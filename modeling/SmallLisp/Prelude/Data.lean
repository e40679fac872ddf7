import SmallLisp.Prelude.Forms

/-!
# Functions on data

Arithmetic, comparison, lists and text. All of them evaluate every argument, from left to right;
arithmetic looks at the kind of each number before it goes on to the next.
-/

namespace SmallLisp.Evaluator

open EvalM

variable (ev : Evaluator) (env : FrameId)

/-- The value of the single argument. -/
def oneArg (op : Text) : List Value → EvalM Value
  | [form] => ev.eval env form
  | args => raise (.arity op "1 argument" args.length)

/-- The values of two arguments. -/
def twoArgs (op : Text) : List Value → EvalM (Value × Value)
  | [a, b] => do
    let a ← ev.eval env a
    let b ← ev.eval env b
    pure (a, b)
  | args => raise (.arity op "2 arguments" args.length)

/-- The numbers that forms evaluate to. -/
def evalNumbers (op : Text) : List Value → EvalM (List Float)
  | [] => pure []
  | form :: more => do
    match ← ev.eval env form with
    | .number x =>
      let xs ← evalNumbers op more
      pure (x :: xs)
    | v => raise (.mismatch op "number" v)

/-- Fails if an operation does not take so many operands: a remainder takes two, and subtraction and
    division at least one. -/
def checkOperands (op : Arith) (n : Nat) : EvalM Unit :=
  match op with
  | .rem => if n = 2 then pure () else raise (.arity op.symbol "2 arguments" n)
  | .sub | .div => if n = 0 then raise (.arity op.symbol "at least 1 argument" n) else pure ()
  | .add | .mul => pure ()

/-- An operation folded over its operands from the left. -/
def foldNumbers (op : Arith) : List Float → Float
  | [] => op.unitElement
  | [x] =>
    match op with
    | .sub | .div => op.apply op.unitElement x
    | _ => x
  | x :: xs => xs.foldl op.apply x

/-- `(+ a …)` and its kind. -/
def arithmetic (op : Arith) (args : List Value) : EvalM Value := do
  checkOperands op args.length
  let xs ← evalNumbers ev env op.symbol args
  pure (.number (foldNumbers op xs))

/-- The number that a value is. -/
def asNumber (op : Text) : Value → Except EvalError Float
  | .number x => .ok x
  | v => .error (.mismatch op "number" v)

/-- The order of two numbers. -/
def ordered : Comparison → Float → Float → Bool
  | .lt, x, y => x < y
  | .gt, x, y => y < x
  | .le, x, y => x ≤ y
  | .ge, x, y => y ≤ x
  | .eq, x, y => x == y
  | .ne, x, y => ! (x == y)

/-- `(= a b)` and its kind. -/
def comparison (c : Comparison) (op : Text) (args : List Value) : EvalM Value := do
  let (a, b) ← ev.twoArgs env op args
  match c with
  | .eq => pure (.bool (a.equal b))
  | .ne => pure (.bool (! a.equal b))
  | c =>
    let x ← ofExcept (asNumber op a)
    let y ← ofExcept (asNumber op b)
    pure (.bool (ordered c x y))

/-- `(not a)`. -/
def negation (op : Text) (args : List Value) : EvalM Value := do
  match ← ev.oneArg env op args with
  | .bool b => pure (.bool (!b))
  | v => raise (.mismatch op "boolean" v)

/-- A list without a location. -/
def newList (items : List Value) : Value := .list items Loc.unknown

/-- `(cons a items)`. -/
def cons (op : Text) (args : List Value) : EvalM Value := do
  let (a, b) ← ev.twoArgs env op args
  let items ← ofExcept (listItems op b)
  pure (newList (a :: items))

/-- The items of the list that is the single argument. -/
def oneList (op : Text) (args : List Value) : EvalM (List Value) := do
  let v ← ev.oneArg env op args
  ofExcept (listItems op v)

/-- `(car items)`: the first item; unit if there is none. -/
def first (op : Text) (args : List Value) : EvalM Value := do
  let items ← ev.oneList env op args
  pure (items.head?.getD .unit)

/-- `(cdr items)`: the items after the first. -/
def rest (op : Text) (args : List Value) : EvalM Value := do
  let items ← ev.oneList env op args
  pure (newList items.tail)

/-- `(len a)`: the items of a list or the characters of a string. -/
def length (op : Text) (args : List Value) : EvalM Value := do
  match ← ev.oneArg env op args with
  | .string s => pure (.number (Float.ofNat s.charCount))
  | .list items _ => pure (.number (Float.ofNat items.length))
  | .unit => pure (.number 0)
  | v => raise (.mismatch op "list or string" v)

/-- `(empty? items)`. -/
def isEmpty (op : Text) (args : List Value) : EvalM Value := do
  let items ← ev.oneList env op args
  pure (.bool items.isEmpty)

/-- `(str a …)`: the arguments as they are displayed, one after the other. -/
def str (args : List Value) : EvalM Value := do
  let vals ← ev.evalAll env args
  pure (.string (Value.displays vals).flatten)

/-- `(type a)`. -/
def typeOf (op : Text) (args : List Value) : EvalM Value := do
  let v ← ev.oneArg env op args
  pure (.string v.typeName)

/-- `(print a …)`: prints the arguments as they are displayed, with blanks between and an ending. -/
def printing (ending : Text) (args : List Value) : EvalM Value := do
  let vals ← ev.evalAll env args
  modify (·.print (Text.join " " (Value.displays vals) ++ ending))
  pure .unit

end SmallLisp.Evaluator
