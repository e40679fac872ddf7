import SmallLisp.Node.Reader
import SmallLisp.Text.Hex
import SmallLisp.Value.Basic

/-!
# Faults

Everything that can end an evaluation without a value. An evaluation error has a cause and a
location; the location may be unknown at first and is then filled in by the nearest enclosing call
(`EvalError.locate`).
-/

namespace SmallLisp

/-- Why a form has no value. -/
inductive EvalCause where
  | undefinedVariable (name : Text)
  | redefinition (name : Text)
  /-- A value of another kind than the operation wants; `got` describes the value. -/
  | typeMismatch (op : Text) (want : String) (got : Text)
  /-- A string that is not hexadecimal. -/
  | notHex (op : Text) (flaw : Hex.Flaw)
  /-- A call of something that is no function. -/
  | illegalCall (callee : Text)
  | wrongCount (op : Text) (want : String) (got : Nat)
  | depthExceeded (limit : Nat)
  /-- A value without an interchange form. -/
  | notSerializable (what : Text)
  /-- Interchange data that stands for no value. -/
  | noValue (typeName : String)
deriving DecidableEq, Repr

/-- The kind of an evaluation error. -/
def EvalCause.kind : EvalCause → String
  | undefinedVariable _ => "undefined variable"
  | redefinition _ => "redefinition"
  | typeMismatch _ _ _ | notHex _ _ => "type mismatch"
  | illegalCall _ => "illegal call target"
  | wrongCount _ _ _ => "wrong number of arguments"
  | depthExceeded _ => "evaluation depth exceeded"
  | notSerializable _ | noValue _ => "value not serializable"

/-- What an evaluation error says beyond its kind. -/
def EvalCause.detail : EvalCause → Text
  | undefinedVariable name => name
  | redefinition name => name ++ " is already defined"
  | typeMismatch op want got => op ++ " expected " ++ want ++ ", got " ++ got
  | notHex op flaw => op ++ ": " ++ flaw.message
  | illegalCall callee => callee ++ " is not callable"
  | wrongCount op want got => op ++ " expected " ++ want ++ ", got " ++ Text.ofNat got
  | depthExceeded limit => s!"more than {limit} nested calls"
  | notSerializable what => what
  | noValue typeName => "no value for Go type " ++ typeName

/-- An evaluation error. -/
structure EvalError where
  loc : Loc
  cause : EvalCause
deriving DecidableEq, Repr

/-- The full wording of an evaluation error. -/
def EvalError.message (e : EvalError) : Text := complaint "eval" e.loc e.cause.kind e.cause.detail

/-- The error with a location, if it had none. -/
def EvalError.locate (e : EvalError) (loc : Loc) : EvalError :=
  if e.loc = Loc.unknown then { e with loc } else e

/-- `op` wants another kind of value than `got`. -/
def EvalError.mismatch (op : Text) (want : String) (got : Value) : EvalError :=
  ⟨got.loc, .typeMismatch op want got.describe⟩

/-- `op` wants another number of arguments than `got`. -/
def EvalError.arity (op : Text) (want : String) (got : Nat) : EvalError :=
  ⟨Loc.unknown, .wrongCount op want got⟩

/-- What ends an evaluation without a value. -/
inductive Fault where
  /-- Source text that cannot be read. -/
  | read (e : ReadError)
  | eval (e : EvalError)
  /-- Interchange data that is malformed. -/
  | malformed
deriving DecidableEq, Repr

/-- The full wording of a fault. -/
def Fault.message : Fault → Text
  | read e => e.message
  | eval e => e.message
  | malformed => "malformed data"

/-- The fault with a location, if it is an evaluation error without one. -/
def Fault.locate (f : Fault) (loc : Loc) : Fault :=
  match f with
  | eval e => eval (e.locate loc)
  | f => f

end SmallLisp
