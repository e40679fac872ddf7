import SmallLisp.Blake2b
import SmallLisp.Text.Quoted
import SmallLisp.Value.Basic

/-!
# Digests of values

A value is known by its kind and its source form together (`Value.key`), and its digest is the hash
of that.
-/

namespace SmallLisp.Value

/-- What a value is hashed by. -/
def key (v : Value) : Text := v.typeName ++ ":" ++ v.sexp

/-- The hash of a value as sixteen hexadecimal digits. -/
def digest (v : Value) : Text := hexDigits 16 (Blake2b.sum v.key).toNat

end SmallLisp.Value
