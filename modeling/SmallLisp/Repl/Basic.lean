import SmallLisp.Repl.Command
import SmallLisp.Repl.History

/-!
# Programs line by line

An interactive session takes lines until they make a whole program, runs it, shows its value unless
that is the unit, and goes on; errors are shown and change nothing about that. A program is not
whole as long as more lines could repair it, which is when a bracket or a string is still open.
-/

namespace SmallLisp

/-! ## 1. What lines say -/

/-- More lines could repair the error: something that was opened has not been closed. -/
def ReadError.isUnfinished : ReadError → Bool
  | lexical ⟨_, .unterminatedString⟩ => true
  | structural ⟨_, .neverClosed _⟩ => true
  | _ => false

/-- What the lines read so far ask for. -/
inductive Request where
  /-- More lines. -/
  | unfinished (text : Text)
  | command (c : Command)
  | program (n : Node)
  | faulty (e : ReadError)

/-- What a text asks for. -/
def Request.ofText (text : Text) : Request :=
  match parse text with
  | .ok n => .program n
  | .error e => if e.isUnfinished then .unfinished text else .faulty e

/-- What a line asks for, after the text of an unfinished program if there is one. Only a line that
    starts a request can be a command. -/
def Request.ofLine (pending : Option Text) (line : Text) : Request :=
  match pending with
  | none => if Command.isCommand line then .command (.ofLine line) else ofText line
  | some text => ofText (text ++ "\n" ++ line)

/-! ## 2. The session -/

/-- An interactive session. -/
structure Repl where
  session : Session
  /-- What is shown before a line that starts a request. -/
  prompt : Text
  /-- The text of a program that is not whole yet. -/
  pending : Option Text
  history : History

namespace Repl

/-- What is shown before a line that continues a program. -/
def continuationPrompt : Text := "... "

/-- A session in which no line has been read. -/
def start (session : Session) (prompt : Text) (history : History) : Repl :=
  ⟨session, prompt, none, history⟩

/-- Shows the prompt for the next line. -/
def ask (r : Repl) : Repl :=
  let shown := match r.pending with
    | none => r.prompt
    | some _ => continuationPrompt
  { r with session := r.session.print shown }

/-- Runs a program and shows its value. -/
def evaluate (s : Session) (n : Node) : Session :=
  match Session.evalNode Session.ampleFuel n s with
  | .ok .unit s => s
  | .ok v s => s.printLine v.sexp
  | .error e s => s.printLine e.message

/-- Takes a line. There is nothing to go on with after the command that ends the session; it comes
    with the session at its end. -/
def feed (r : Repl) (line : Text) : Except Repl Repl :=
  let r := { r with history := r.history.record line }
  match Request.ofLine r.pending line with
  | .unfinished text => .ok { r with pending := some text }
  | .command .quit => .error { r with pending := none }
  | .command c => .ok { r with pending := none, session := r.session.perform c }
  | .program n => .ok { r with pending := none, session := evaluate r.session n }
  | .faulty e => .ok { r with pending := none, session := r.session.printLine e.message }

/-- Takes lines until they end or one of them ends the session. -/
def run (r : Repl) : List Text → Repl
  | [] => r.ask
  | line :: lines =>
    match r.ask.feed line with
    | .ok r => r.run lines
    | .error r => r

/-- What is shown when a session starts: the version, and with a line editor how to use it. -/
def banner (version : Text) (editing : Bool) : Text :=
  "zy version " ++ version ++ "\n"
    ++ (if editing then ("press tab to complete names. Ctrl-d to exit.\n" : Text) else [])

end Repl

end SmallLisp
