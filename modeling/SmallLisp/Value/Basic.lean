import SmallLisp.Node.Basic
import SmallLisp.Number.Arithmetic

/-!
# Values

One type for what programs are made of and what they compute: a program is a value that is
evaluated. This file has the type, the functions that come with the language (`Primitive`), and
the two renderings of a value: `sexp`, which can be read back, and `display`, which is what `print`
shows.
-/

namespace SmallLisp

/-! ## 1. The functions of the language -/

/-- The connectives, which stop at the first operand that decides. -/
inductive Connective where
  | and
  | or
deriving DecidableEq, Repr

/-- The comparisons: two on values of any kind, four on numbers. -/
inductive Comparison where
  | eq
  | ne
  | lt
  | gt
  | le
  | ge
deriving DecidableEq, Repr

/-- Writing values in an interchange format, and reading them. -/
inductive Interchange where
  | json
  | unjson
  | msgpack
  | unmsgpack
deriving DecidableEq, Repr

/-- The functions of the language. All of them get their arguments unevaluated. -/
inductive Primitive where
  | conditional
  | define
  | assign
  | lambda
  | defun
  | sequence
  | quote
  | connective (c : Connective)
  | eval
  | read
  | apply
  | arith (op : Arith)
  | compare (c : Comparison)
  | not
  | list
  | cons
  | car
  | first
  | cdr
  | rest
  | len
  | isEmpty
  | str
  | type
  | print
  | println
  | interchange (i : Interchange)
  | hash
  | dump
deriving DecidableEq, Repr

namespace Primitive

/-- The name a function goes by in source. -/
def name : Primitive → String
  | conditional => "if"
  | define => "def"
  | assign => "set!"
  | lambda => "lambda"
  | defun => "defun"
  | sequence => "do"
  | quote => "quote"
  | connective .and => "and"
  | connective .or => "or"
  | eval => "eval"
  | read => "read"
  | apply => "apply"
  | arith op => op.symbol
  | compare .eq => "="
  | compare .ne => "!="
  | compare .lt => "<"
  | compare .gt => ">"
  | compare .le => "<="
  | compare .ge => ">="
  | not => "not"
  | list => "list"
  | cons => "cons"
  | car => "car"
  | first => "first"
  | cdr => "cdr"
  | rest => "rest"
  | len => "len"
  | isEmpty => "empty?"
  | str => "str"
  | type => "type"
  | print => "print"
  | println => "println"
  | interchange .json => "json"
  | interchange .unjson => "unjson"
  | interchange .msgpack => "msgpack"
  | interchange .unmsgpack => "unmsgpack"
  | hash => "hash"
  | dump => "dump"

/-- The functions that control how their arguments are evaluated. -/
def forms : List Primitive :=
  [conditional, define, assign, lambda, defun, sequence, quote, connective .and, connective .or,
    eval, read, apply]

/-- Arithmetic, comparison and negation. -/
def core : List Primitive :=
  Arith.all.map arith ++
    [compare .eq, compare .ne, compare .lt, compare .gt, compare .le, compare .ge, not]

/-- The functions on lists. -/
def lists : List Primitive := [list, cons, car, first, cdr, rest, len, isEmpty]

/-- Text and printing. -/
def strings : List Primitive := [str, type, print, println]

/-- Interchange formats, hashes and dumps. -/
def encodings : List Primitive :=
  [interchange .json, interchange .unjson, interchange .msgpack, interchange .unmsgpack, hash, dump]

/-- Every function of the language. -/
def all : List Primitive := forms ++ core ++ lists ++ strings ++ encodings

end Primitive

/-- A function that is not written in the language: one that comes with it, or one of the two that a
    host can add to watch a program. Both are known by the name they are added under. -/
inductive Native where
  | primitive (p : Primitive)
  /-- Records the depth, the scope and the arguments of each call. -/
  | probe (name : Text)
  /-- Gives the scopes around the call as text. -/
  | surroundings (name : Text)
deriving DecidableEq, Repr

/-- The name of a native function. -/
def Native.name : Native → Text
  | primitive p => p.name
  | probe name | surroundings name => name

/-! ## 2. Values -/

/-- A frame of bindings is known by its number. -/
abbrev FrameId := Nat

/-- What programs are made of and what they compute. -/
inductive Value where
  | unit
  | number (x : Float)
  | string (s : Text)
  | bool (b : Bool)
  | atom (name : Text) (loc : Loc)
  | list (items : List Value) (loc : Loc)
  /-- Forms that are evaluated in order. -/
  | sequence (body : List Value)
  | native (f : Native)
  /-- A function with the frame it was made in. One made by `lambda` has no name; one made with unit
      in the place of its parameters has no list of them, and takes none. -/
  | closure (name : Text) (params : Option (List Text)) (body : List Value) (env : FrameId)
  /-- A form that stands for itself. `applied` marks an argument that was evaluated before it was
      passed to a native function. -/
  | quote (v : Value) (applied : Bool)

namespace Value

instance : Inhabited Value := ⟨.unit⟩

/-- The name of the kind of a value, as the language itself gives it. -/
def typeName : Value → String
  | unit => "unit"
  | number _ => "number"
  | string _ => "string"
  | bool _ => "boolean"
  | atom _ _ => "atom"
  | list _ _ => "list"
  | sequence _ => "do"
  | native _ => "native-function"
  | closure _ _ _ _ => "closure"
  | quote _ _ => "quote"

/-- Where a value was read, if it carries that: atoms and lists do, and what quotes them. -/
def loc : Value → Loc
  | atom _ l | list _ l => l
  | quote v _ => v.loc
  | _ => Loc.unknown

/-- The literal of a truth value. -/
def boolText (b : Bool) : Text := if b then "#t" else "#f"

/-- How the source form of a closure starts. -/
def closureHead (name : Text) : Text :=
  if name.isEmpty || name == Text.ofString "lambda" then "(lambda (" else "(defun " ++ name ++ " ("

mutual

/-- A value in source form. -/
def sexp : Value → Text
  | unit => "()"
  | number x => Number.plain x
  | string s => "\"" ++ s ++ "\""
  | bool b => boolText b
  | atom name _ => name
  | list items _ => "(" ++ Text.join " " (sexps items) ++ ")"
  | sequence body => "(" ++ Text.join " " ("do" :: sexps body) ++ ")"
  | native f => "fn [" ++ f.name ++ "]"
  | closure name params body _ =>
    closureHead name ++ Text.join " " (params.getD []) ++ ")" ++ (sexps body).flatMap (0x20 :: ·)
      ++ ")"
  | quote v _ => "'" ++ v.sexp

/-- Values in source form. -/
def sexps : List Value → List Text
  | [] => []
  | v :: vs => v.sexp :: sexps vs

end

mutual

/-- A value as `print` shows it: strings and quoted forms without their quotes, also in lists. -/
def display : Value → Text
  | string s => s
  | list items _ => "(" ++ Text.join " " (displays items) ++ ")"
  | quote v _ => v.display
  | v => v.sexp

/-- Values as `print` shows them. -/
def displays : List Value → List Text
  | [] => []
  | v :: vs => v.display :: displays vs

end

/-- Values in source form with blanks between them. -/
def joined (vs : List Value) : Text := Text.join " " (sexps vs)

/-- A value as errors name it. -/
def describe (v : Value) : Text := v.typeName ++ " " ++ v.sexp

/-- Equality as the language has it: two numbers, strings, atoms or truth values. Nothing else is
    equal to anything, not even to itself. -/
def equal : Value → Value → Bool
  | number x, number y => x == y
  | string s, string t => s == t
  | atom a _, atom b _ => a == b
  | bool a, bool b => a == b
  | _, _ => false

/-! ## 3. Values from syntax trees -/

/-- The value under the quote of its node. -/
def quoteIf (i : NodeInfo) (v : Value) : Value := if i.quoted then .quote v false else v

mutual

/-- The value of a syntax tree: a quoted node becomes a quote, a program a sequence. -/
def ofNode : Node → Value
  | .unit i => quoteIf i .unit
  | .atom i name => quoteIf i (.atom name i.loc)
  | .string i text => quoteIf i (.string text)
  | .number i x => quoteIf i (.number x)
  | .bool i b => quoteIf i (.bool b)
  | .list i items => quoteIf i (.list (ofNodes items) i.loc)
  | .progn i items => quoteIf i (.sequence (ofNodes items))

/-- The values of syntax trees. -/
def ofNodes : List Node → List Value
  | [] => []
  | n :: ns => ofNode n :: ofNodes ns

end

end Value

end SmallLisp
