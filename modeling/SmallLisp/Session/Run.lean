import SmallLisp.Eval.Run

/-!
# Running programs in a session

What a host does with a session: run source text in the root frame, apply functions, look at what is
bound. Tables of functions can be merged as long as no name is in two of them.
-/

namespace SmallLisp

/-! ## 1. Versions -/

/-- The version of a build: its tag, with the commit if that is known; without a tag, `0.0.0`. -/
def versionText (tag commit : Text) : Text :=
  if tag.isEmpty then "0.0.0" else if commit.isEmpty then tag else tag ++ "/" ++ commit

/-! ## 2. Tables of functions -/

/-- Adds the names of a table to those collected so far. The first name that is there already is the
    error. -/
def addTable (collected : List Text) : List Text → Except Text (List Text)
  | [] => .ok collected
  | name :: more =>
    if collected.contains name then .error name else addTable (name :: collected) more

/-- The names in some tables, in bytewise order. A name must not be in two tables. -/
def mergeTables (tables : List (List Text)) : Except Text (List Text) :=
  match tables.foldlM (fun names table => addTable names table.eraseDups) [] with
  | .ok names => .ok (Text.sort names)
  | .error name => .error (" duplicate function '" ++ name ++ "' not allowed")

/-! ## 3. Programs -/

namespace Session

/-- Fuel for more nested calls than any memory holds. -/
def ampleFuel : Nat := 0x1000000000000000

/-- A limit of nesting as hosts give it: zero for the default, a negative number for none. -/
def limitOf (n : Int) : Nat := if n = 0 then defaultLimit else n.toNat

/-- A session with settings: its limit of nesting, whether it is traced and whether calls are
    counted. -/
def configured (version : Text) (maxDepth : Int) (trace count : Bool) : Session :=
  let s := { fresh version with limit := limitOf maxDepth, trace }
  if count then s.countCalls else s

/-- Runs a program in the root frame. -/
def evalNode (fuel : Nat) (n : Node) : EvalM Value := do
  let s ← get
  (Evaluator.ofFuel fuel).eval s.root (.ofNode n)

/-- Runs source text in the root frame. -/
def evalText (fuel : Nat) (src : Text) : EvalM Value :=
  match parse src with
  | .ok n => evalNode fuel n
  | .error e => EvalM.fail (.read e)

/-- Applies a function to values, in the root frame. -/
def apply (fuel : Nat) (f : Value) (vals : List Value) : EvalM Value := do
  let s ← get
  (Evaluator.ofFuel fuel).apply s.root f vals

/-! ## 4. Functions by name -/

/-- Why a function cannot be shown. -/
inductive ShowError where
  | notFound (name : Text)
  | notFunction (name : Text) (typeName : String)
deriving DecidableEq, Repr

/-- The wording of the error. -/
def ShowError.message : ShowError → Text
  | notFound name => name.quoted ++ " not found"
  | notFunction name typeName =>
    "dump by name error: " ++ name ++ " is a " ++ typeName ++ ", not a function"

/-- Prints the source form of a function that is bound to a global name. -/
def showFunction (s : Session) (name : Text) : Except ShowError Session :=
  match s.find? name with
  | none => .error (.notFound name)
  | some v =>
    match v with
    | .closure _ _ _ _ | .native _ => .ok (s.print (v.sexp ++ "\n"))
    | v => .error (.notFunction name v.typeName)

end Session

end SmallLisp
