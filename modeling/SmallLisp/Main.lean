import SmallLisp.CommandLine.Interpreter
import SmallLisp.CommandLine.TreePrinter

/-!
# The programs

The interpreter and the tree printer, acting on the world. Everything they decide is decided by
`Interpreter.run` and `TreePrinter.run`; here are only the means for that.
-/

namespace SmallLisp.World

/-- The bytes of a text. -/
def toBytes (t : Text) : ByteArray := ⟨t.toArray⟩

/-- The text with these bytes. -/
def ofBytes (b : ByteArray) : Text := b.data.toList

/-- A text as a name of a file. -/
def toName (t : Text) : String := String.ofList (Utf8.decode t)

/-- The wording of an error with a file. -/
def trouble (path : Text) (e : IO.Error) : Text :=
  let reason := match e with
    | .noFileOrDirectory .. => "no such file or directory"
    | .permissionDenied .. => "permission denied"
    | e => toString e
  "open " ++ path ++ ": " ++ reason

/-- Reads up to the end of a line, or of the input. -/
partial def readLine (input : IO.FS.Stream) (front : ByteArray) : IO ByteArray := do
  let b ← input.read 1
  if b.isEmpty then return front
  let line := front ++ b
  if b.data.contains 0x0A then return line
  readLine input line

/-- Reads up to the end of the input. -/
partial def readAll (input : IO.FS.Stream) (front : ByteArray) : IO ByteArray := do
  let b ← input.read 4096
  if b.isEmpty then return front
  readAll input (front ++ b)

/-- Prints what a session has put out. -/
def showOutput (output : IO.FS.Stream) (r : Repl) : IO Repl := do
  let (text, session) := r.session.drain
  output.write (toBytes text)
  output.flush
  return { r with session }

/-- Takes lines one after the other; `lines` are those that have been read already. -/
partial def interact (input output : IO.FS.Stream) (editing : Bool) (lines : List Text) (r : Repl) :
    IO Repl := do
  let r ← showOutput output r.ask
  let lines ← match lines with
    | [] => do
      let raw := ofBytes (← readLine input .empty)
      pure (if editing then Lines.edited raw else Lines.plain raw)
    | lines => pure lines
  match lines with
  | [] => return r
  | line :: more =>
    match r.feed line with
    | .ok r => interact input output editing more (← showOutput output r)
    | .error r => showOutput output r

/-- Acts on the world. -/
def console : IO (Console IO) := do
  let input ← IO.getStdin
  let output ← IO.getStdout
  let errors ← IO.getStderr
  return {
    readFile := fun path =>
      try return .ok (ofBytes (← IO.FS.readBinFile (toName path)))
      catch e => return .error (trouble path e)
    writeFile := fun path content =>
      try
        IO.FS.writeBinFile (toName path) (toBytes content)
        return none
      catch e => return some (trouble path e)
    readInput := return ofBytes (← readAll input .empty)
    print := fun t => do
      output.write (toBytes t)
      output.flush
    complain := fun t => errors.write (toBytes t)
    interact := fun editing r => interact input output editing [] r }

/-- The version of this build. -/
def version : Text := versionText [] []

/-- The tree printer. -/
def treePrinter (args : List String) : IO UInt32 := do
  let code ← TreePrinter.run (← console) (args.map Text.ofString)
  return code.code

end SmallLisp.World

/-- The interpreter. -/
def main (args : List String) : IO UInt32 := do
  let home? ← IO.getEnv "HOME"
  let code ← SmallLisp.Interpreter.run (← SmallLisp.World.console) SmallLisp.World.version
    (home?.map SmallLisp.Text.ofString) (args.map SmallLisp.Text.ofString)
  return code.code
