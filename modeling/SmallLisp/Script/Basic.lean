import SmallLisp.Value.Basic

/-!
# Scripts

A script is a program for a stack machine: a pool of constants, and instructions that push one of
them or make a call. Two instructions are in use; others can be carried in a script and are listed
by their number.
-/

namespace SmallLisp

/-- An instruction: a code and an argument. -/
structure Instruction where
  op : UInt8
  arg : Int
deriving DecidableEq, Repr

namespace Opcode

/-- Pushes the constant with the number of the argument. -/
def const : UInt8 := 0

/-- Applies the value on top of the stack to as many values beneath it as the argument says. -/
def call : UInt8 := 1

/-- The name of a code. -/
def name (op : UInt8) : String :=
  if op = const then "CONST" else if op = call then "CALL" else s!"OP({op.toNat})"

end Opcode

/-- The wording of an instruction. -/
def Instruction.text (i : Instruction) : String := s!"{Opcode.name i.op} {i.arg}"

/-- A pool of constants and code that refers to it. -/
structure Script where
  constants : Array Value
  code : Array Instruction

namespace Script

/-- Nothing to do. -/
def empty : Script := ⟨#[], #[]⟩

/-- A string with blanks in front of it up to a width. -/
def padLeft (width : Nat) (fill : Char) (s : String) : String :=
  String.ofList (List.replicate (width - s.length) fill) ++ s

/-- A string with blanks behind it up to a width. -/
def padRight (width : Nat) (s : String) : String :=
  s ++ String.ofList (List.replicate (width - s.length) ' ')

/-- The constant that an instruction pushes, if it pushes one. -/
def operand? (z : Script) (i : Instruction) : Option Value :=
  if i.op = Opcode.const ∧ 0 ≤ i.arg then z.constants[i.arg.toNat]? else none

/-- The line of a constant in a listing. -/
def constantLine (k : Nat) (v : Value) : Text :=
  "  " ++ padLeft 4 ' ' (toString k) ++ ": " ++ v.describe ++ "\n"

/-- The line of an instruction in a listing, with the constant it pushes. -/
def codeLine (z : Script) (k : Nat) (i : Instruction) : Text :=
  let line := "  " ++ padLeft 4 '0' (toString k) ++ "  " ++ padRight 6 (Opcode.name i.op)
    ++ s!" {i.arg}"
  match z.operand? i with
  | some v => line ++ "\t; " ++ v.sexp ++ "\n"
  | none => line ++ "\n"

/-- The constants and then the code, one per line. -/
def listing (z : Script) : Text :=
  "constants:\n"
    ++ z.constants.toList.zipIdx.flatMap (fun (v, k) => constantLine k v)
    ++ "code:\n"
    ++ z.code.toList.zipIdx.flatMap (fun (i, k) => z.codeLine k i)

end Script

end SmallLisp
