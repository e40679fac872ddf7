import SmallLisp.Script.Compile
import SmallLisp.Session.Run
import SmallLisp.Text.Blank

/-!
# Commands

A line that starts with a point and a letter is a command to the reader of lines itself, not a
program. A point before a digit starts a number.
-/

namespace SmallLisp

/-- A request that is not a program. -/
inductive Command where
  /-- Ends the session. -/
  | quit
  /-- Lists what is bound in the root frame, natives too if asked for. -/
  | listing (natives : Bool)
  /-- Shows the structure of what is bound to a name. -/
  | dump (name : Text)
  /-- Turns the trace on or off. -/
  | trace
  /-- Turns the log on or off. -/
  | verbose
  /-- Lists the script of a program. -/
  | script (src : Text)
  | unknown (word : Text)
deriving DecidableEq, Repr

namespace Command

/-- The letters of Latin-1. -/
def isLatinLetter (b : UInt8) : Bool :=
  let n := b.toNat
  (0x41 ≤ n && n ≤ 0x5A) || (0x61 ≤ n && n ≤ 0x7A) || n == 0xAA || n == 0xB5 || n == 0xBA
    || (0xC0 ≤ n && n != 0xD7 && n != 0xF7)

/-- The line is a command: a point stands first, and the byte after it is a letter of Latin-1. -/
def isCommand (line : Text) : Bool :=
  match line.trim with
  | 0x2E :: b :: _ => isLatinLetter b
  | _ => false

/-- What follows the first word of a line. -/
def operand (word line : Text) : Text := Text.trim (line.trim.drop word.length)

/-- The command on a line. Words that a command does not use are ignored. -/
def ofLine (line : Text) : Command :=
  match line.words with
  | [] => unknown []
  | word :: more =>
    if word = (".quit" : Text) then quit
    else if word = (".ls" : Text) then listing (more.head? == some (Text.ofString "all"))
    else if word = (".dump" : Text) then
      match more with
      | [] => listing true
      | name :: _ => dump name
    else if word = (".trace" : Text) then trace
    else if word = (".verb" : Text) then verbose
    else if word = (".script" : Text) then script (operand word line)
    else unknown word

/-- The form that shows the structure of what is bound to a name. -/
def dumpForm (name : Text) : Value :=
  .list [.atom "dump" Loc.unknown, .atom name Loc.unknown] Loc.unknown

end Command

namespace Session

/-- Prints a text and ends the line. -/
def printLine (s : Session) (t : Text) : Session := s.print (t ++ "\n")

/-- Tells of a setting. -/
def printSetting (s : Session) (name : String) (on : Bool) : Session :=
  s.printLine (s!"{name}: {on}.")

/-- Shows what is bound to a name: the source of a function, and the structure of anything else. -/
def dumpName (s : Session) (name : Text) : Session :=
  match s.showFunction name with
  | .ok s => s
  | .error _ =>
    match (Evaluator.ofFuel ampleFuel).eval s.root (Command.dumpForm name) s with
    | .ok _ s => s
    | .error e s => s.printLine e.message

/-- Does what a command says. Ending the session is left to whoever reads the lines. -/
def perform (s : Session) : Command → Session
  | .quit => s
  | .listing natives => s.print (s.store.listing s.root "Scopes:" natives)
  | .dump name => s.dumpName name
  | .trace => { s with trace := !s.trace }.printSetting "trace" !s.trace
  | .verbose => { s with verbose := !s.verbose }.printSetting "verbose" !s.verbose
  | .script src =>
    match compileText src with
    | .ok z => s.print z.listing
    | .error e => s.printLine e.message
  | .unknown word =>
    s.printLine ("unknown command '" ++ word ++ "'; try .quit .ls .dump .trace .verb .script")

end Session

end SmallLisp
