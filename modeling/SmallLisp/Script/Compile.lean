import SmallLisp.Node.Reader
import SmallLisp.Script.Basic
import SmallLisp.Value.Digest

/-!
# From programs to scripts

A literal or an atom becomes an instruction that pushes it from the pool of constants. A list pushes
its elements from the last to the first and then calls the value on top, which is its head. An empty
list does nothing.

Constants are shared: one that is in the pool already is not added again. They are found by a hash,
which is a parameter here, since whatever the hash is, a constant is only shared with an equal one.

A compiler goes on where it left off, also after a program that it refused.
-/

namespace SmallLisp

/-! ## 1. Errors -/

/-- Why a program is not compiled. -/
inductive CompileCause where
  /-- A quote before something other than a literal. -/
  | quotedForm (form : String)
  /-- A program inside a program. -/
  | nested (kind : String)
  /-- Something that is no program. -/
  | notProgram (kind : String)
deriving DecidableEq, Repr

/-- A part of a program that cannot be compiled. -/
structure CompileError where
  loc : Loc
  cause : CompileCause
deriving DecidableEq, Repr

/-- The kind of the error. -/
def CompileError.kind (_ : CompileError) : String := "cannot translate"

/-- What the error says beyond its kind. -/
def CompileCause.detail : CompileCause → String
  | quotedForm form => "quoted form " ++ form
  | nested kind => "nested " ++ kind
  | notProgram kind => "expected a program, got " ++ kind

/-- The full wording of the error. -/
def CompileError.message (e : CompileError) : Text :=
  complaint "syntax" e.loc e.kind e.cause.detail

/-! ## 2. The compiler -/

/-- A script that is being made, and the number of the first constant with each hash. -/
structure Compiler where
  script : Script
  index : List (UInt64 × Nat)

namespace Compiler

/-- Nothing compiled yet. -/
def empty : Compiler := ⟨Script.empty, []⟩

/-- Adds an instruction. -/
def emit (t : Compiler) (op : UInt8) (arg : Int) : Compiler :=
  { t with script := { t.script with code := t.script.code.push ⟨op, arg⟩ } }

/-- The number of a constant that is in the pool and can be found by its hash. -/
def find? (hash : Text → UInt64) (t : Compiler) (v : Value) : Option Nat :=
  match t.index.lookup (hash v.key) with
  | none => none
  | some k =>
    match t.script.constants[k]? with
    | none => none
    | some w => if w.equal v then some k else none

/-- Adds a constant to the pool. Of several constants with one hash, the first is found by it. -/
def add (hash : Text → UInt64) (t : Compiler) (v : Value) : Compiler :=
  let key := hash v.key
  let index := if (t.index.lookup key).isSome then t.index
    else t.index ++ [(key, t.script.constants.size)]
  { script := { t.script with constants := t.script.constants.push v }, index }

/-- Pushes a constant, which is added to the pool unless it is there. -/
def constant (hash : Text → UInt64) (t : Compiler) (v : Value) : Compiler :=
  match t.find? hash v with
  | some k => t.emit Opcode.const k
  | none => (t.add hash v).emit Opcode.const t.script.constants.size

end Compiler

/-- A compilation. Whatever its end, the compiler goes on as it left it. -/
abbrev CompileM := EStateM CompileError Compiler

mutual

/-- Compiles an expression. -/
def Node.compile (hash : Text → UInt64) : Node → CompileM Unit
  | .number _ x => modify (·.constant hash (.number x))
  | .string _ text => modify (·.constant hash (.string text))
  | .bool _ b => modify (·.constant hash (.bool b))
  | .unit i =>
    if i.quoted then throw ⟨i.loc, .quotedForm (Node.unit i).render⟩ else pure ()
  | .atom i name =>
    if i.quoted then throw ⟨i.loc, .quotedForm (Node.atom i name).render⟩
    else modify (·.constant hash (.atom name Loc.unknown))
  | .list i items =>
    if i.quoted then throw ⟨i.loc, .quotedForm (Node.list i items).render⟩
    else if items.isEmpty then pure ()
    else do
      Node.compileBackwards hash items
      modify (·.emit Opcode.call (items.length - 1))
  | .progn i items =>
    if i.quoted then throw ⟨i.loc, .quotedForm (Node.progn i items).render⟩
    else throw ⟨i.loc, .nested (Node.progn i items).kindName⟩

/-- Compiles expressions from the last to the first. -/
def Node.compileBackwards (hash : Text → UInt64) : List Node → CompileM Unit
  | [] => pure ()
  | n :: ns => do
    Node.compileBackwards hash ns
    n.compile hash

end

/-- Compiles expressions in order. -/
def compileAll (hash : Text → UInt64) : List Node → CompileM Unit
  | [] => pure ()
  | n :: ns => do
    n.compile hash
    compileAll hash ns

/-- Compiles a program; the script is that of everything compiled so far. -/
def compileProgram (hash : Text → UInt64) (n : Node) : CompileM Script :=
  match n with
  | .progn _ items => do
    compileAll hash items
    let t ← get
    pure t.script
  | n => throw ⟨n.loc, .notProgram n.kindName⟩

/-- Why a text has no script. -/
inductive ScriptFault where
  | read (e : ReadError)
  | compile (e : CompileError)
deriving DecidableEq, Repr

/-- The full wording of the error. -/
def ScriptFault.message : ScriptFault → Text
  | read e => e.message
  | compile e => e.message

/-- The script of a program given as text. -/
def compileText (src : Text) : Except ScriptFault Script :=
  match parse src with
  | .error e => .error (.read e)
  | .ok n =>
    match compileProgram Blake2b.sum n Compiler.empty with
    | .ok z _ => .ok z
    | .error e _ => .error (.compile e)

end SmallLisp
