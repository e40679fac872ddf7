import SmallLisp.Interchange.Json
import SmallLisp.Interchange.MessagePack
import SmallLisp.Prelude.Data
import SmallLisp.Value.Digest
import SmallLisp.Value.Dump

/-!
# Encodings

Values as text and back: interchange formats, hashes and dumps. In the language MessagePack data are
strings of hexadecimal digits.
-/

namespace SmallLisp

/-! ## 1. Values in the interchange formats -/

/-- A value in JSON. -/
def Value.toJson (v : Value) : Except EvalError Text :=
  match Datum.ofValue v with
  | .ok d => .ok (Json.write d)
  | .error e => .error e

/-- A value in MessagePack. -/
def Value.toMessagePack (v : Value) : Except EvalError Text :=
  match Datum.ofValue v with
  | .ok d => .ok (MessagePack.write d)
  | .error e => .error e

/-- The value of a datum that was read, if there is one. -/
def Value.ofDatum? (d? : Option Datum) : Except Fault Value :=
  match d? with
  | none => .error .malformed
  | some d =>
    match d.toValue with
    | .ok v => .ok v
    | .error e => .error (.eval e)

/-- The value that a JSON text stands for. -/
def Value.ofJson (t : Text) : Except Fault Value := ofDatum? (Json.read t)

/-- The value that MessagePack bytes stand for. -/
def Value.ofMessagePack (t : Text) : Except Fault Value := ofDatum? (MessagePack.read t)

namespace Evaluator

open EvalM

variable (ev : Evaluator) (env : FrameId)

/-! ## 2. The functions -/

/-- The value of a datum that was read. In a verbose session every datum looked at is logged. -/
def valueOf (d? : Option Datum) : EvalM Value := do
  if (← get).verbose then
    modify fun s =>
      ((d?.map Datum.visited).getD []).foldl
        (fun s t => s.log ("GoToValue: decoded type is " ++ t)) s
  match Value.ofDatum? d? with
  | .ok v => pure v
  | .error f => fail f

/-- `(json a)`, `(unjson text)`, `(msgpack a)`, `(unmsgpack text)`. -/
def interchange (i : Interchange) (op : Text) (args : List Value) : EvalM Value := do
  let v ← ev.oneArg env op args
  match i with
  | .json => do
    let t ← ofExcept v.toJson
    pure (.string t)
  | .msgpack => do
    let t ← ofExcept v.toMessagePack
    pure (.string (Hex.encode t))
  | .unjson =>
    match v with
    | .string s => valueOf (Json.read s)
    | v => raise (.mismatch op "string" v)
  | .unmsgpack =>
    match v with
    | .string s =>
      match Hex.decode s with
      | .ok bytes => valueOf (MessagePack.read bytes)
      | .error flaw => raise ⟨Loc.unknown, .notHex op flaw⟩
    | v => raise (.mismatch op "hex string" v)

/-- `(hash a)`. -/
def hash (op : Text) (args : List Value) : EvalM Value := do
  let v ← ev.oneArg env op args
  pure (.string v.digest)

/-- `(dump a)`: prints the inner structure of a value. -/
def dump (op : Text) (args : List Value) : EvalM Value := do
  let v ← ev.oneArg env op args
  let s ← get
  modify (·.print (v.dump (s.printer s.store)))
  pure .unit

end Evaluator

end SmallLisp
