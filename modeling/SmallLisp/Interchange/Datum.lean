import SmallLisp.Value.Fault

/-!
# Interchange data

What values look like to the outside. A value is first turned into a `Datum`, which the formats
write and read. Numbers, strings, truth values and unit stand for themselves, lists are arrays, a
quote is its content, and an atom is the map with the single key `atom`. Functions and sequences
have no interchange form, and no other map stands for a value.
-/

namespace SmallLisp

/-- Data that the interchange formats carry. -/
inductive Datum where
  | null
  | bool (b : Bool)
  | float64 (x : Float)
  /-- A number that was stored with single precision. -/
  | float32 (x : Float)
  | int64 (n : Int)
  | uint64 (n : Nat)
  | int (n : Int)
  | int8 (n : Int)
  | string (s : Text)
  | bytes (s : Text)
  | array (items : List Datum)
  | map (entries : List (Text × Datum))
  /-- A point in time, which some formats have as a type of its own. -/
  | time
  /-- An application's own extension of a format. -/
  | extension

namespace Datum

instance : Inhabited Datum := ⟨.null⟩

/-- The name of the type of a datum, as errors and the log give it. -/
def typeName : Datum → String
  | null => "<nil>"
  | bool _ => "bool"
  | float64 _ => "float64"
  | float32 _ => "float32"
  | int64 _ => "int64"
  | uint64 _ => "uint64"
  | int _ => "int"
  | int8 _ => "int8"
  | string _ => "string"
  | bytes _ => "[]uint8"
  | array _ => "[]interface \x7b\x7d"
  | map _ => "map[string]interface \x7b\x7d"
  | time => "time.Time"
  | extension => "codec.RawExt"

/-- The key of the map that stands for an atom. -/
def atomKey : Text := "atom"

/-- The entries of a map with one more before them. A map holds a key once: of two entries with the
    same key the later one stays. -/
def withEntry (key : Text) (d : Datum) (later : List (Text × Datum)) : List (Text × Datum) :=
  if later.any fun e => e.1 = key then later else (key, d) :: later

/-! ## 1. From values -/

mutual

/-- The interchange form of a value. -/
def ofValue : Value → Except EvalError Datum
  | .unit => .ok .null
  | .number x => .ok (.float64 x)
  | .string s => .ok (.string s)
  | .bool b => .ok (.bool b)
  | .atom name _ => .ok (.map [(atomKey, .string name)])
  | .quote v _ => ofValue v
  | .list items _ =>
    match ofValues items with
    | .ok ds => .ok (.array ds)
    | .error e => .error e
  | v => .error ⟨v.loc, .notSerializable v.describe⟩

/-- The interchange forms of values; the first value without one decides the error. -/
def ofValues : List Value → Except EvalError (List Datum)
  | [] => .ok []
  | v :: vs =>
    match ofValue v with
    | .error e => .error e
    | .ok d =>
      match ofValues vs with
      | .error e => .error e
      | .ok ds => .ok (d :: ds)

end

/-! ## 2. To values -/

/-- The error for a datum that stands for no value. -/
def refuse (d : Datum) : Except EvalError Value := .error ⟨Loc.unknown, .noValue d.typeName⟩

mutual

/-- The value of a datum. It carries no locations. -/
def toValue : Datum → Except EvalError Value
  | null => .ok .unit
  | bool b => .ok (.bool b)
  | float64 x | float32 x => .ok (.number x)
  | int64 n | int n => .ok (.number (Float.ofInt n))
  | uint64 n => .ok (.number (Float.ofNat n))
  | string s | bytes s => .ok (.string s)
  | array items =>
    match toValues items with
    | .ok vs => .ok (.list vs Loc.unknown)
    | .error e => .error e
  | map [(key, .string name)] =>
    if key = atomKey then .ok (.atom name Loc.unknown) else refuse (map [(key, .string name)])
  | d => refuse d

/-- The values of data; the first datum without a value decides the error. -/
def toValues : List Datum → Except EvalError (List Value)
  | [] => .ok []
  | d :: ds =>
    match toValue d with
    | .error e => .error e
    | .ok v =>
      match toValues ds with
      | .error e => .error e
      | .ok vs => .ok (v :: vs)

end

mutual

/-- The types of the data that are looked at when a datum is turned into a value: it, then its parts
    up to the first that has no value. -/
def visited : Datum → List String
  | array items => typeName (array items) :: visitedAll items
  | d => [d.typeName]

/-- The types of the data looked at in a list. -/
def visitedAll : List Datum → List String
  | [] => []
  | d :: ds =>
    d.visited ++
      match d.toValue with
      | .ok _ => visitedAll ds
      | .error _ => []

end

end Datum

end SmallLisp
