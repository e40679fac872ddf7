import SmallLisp.CommandLine.Console
import SmallLisp.Options.Config
import SmallLisp.Script.Wire

/-!
# The command line of the interpreter

The interpreter runs a program given as a flag, or a file, or else an interactive session. A file
that fails is followed by an interactive session, unless the settings say otherwise. Instead of
being run, a file can be made into a script, or be a script already, which is then listed or
written.
-/

namespace SmallLisp.Interpreter

variable {m : Type → Type} [Monad m]

/-- The name under which the interpreter speaks of itself. -/
def programName : String := "zy"

/-! ## 1. Programs -/

/-- Prints what a session has put out. -/
def emitOutput (c : Console m) (s : Session) : m Session := do
  let (text, s) := s.drain
  c.print text
  pure s

/-- Runs a program given on the command line and prints its value unless that is the unit. -/
def runCommand (c : Console m) (cfg : Config) (s : Session) : m ExitCode :=
  match Session.evalText Session.ampleFuel cfg.command s with
  | .error e s => do
    let _ ← emitOutput c s
    c.complain (e.message ++ "\n")
    pure .failure
  | .ok v s => do
    let s := match v with
      | .unit => s
      | v => s.printLine v.sexp
    let _ ← emitOutput c s
    pure .success

/-- The outcome of work on a file: the error if there is one, and the session after it. -/
abbrev Worked := Option Text × Session

/-- Runs the program in a file; the calls are listed after it, if they are counted. -/
def runFile (c : Console m) (cfg : Config) (path : Text) (s : Session) : m Worked := do
  let (error?, s) ← match ← c.readFile path with
    | .error e => pure (some e, s)
    | .ok src =>
      match Session.evalText Session.ampleFuel src s with
      | .ok _ s => pure (none, s)
      | .error e s => pure (some e.message, s)
  let s := if cfg.countCalls then s.print s.countsText else s
  let s ← emitOutput c s
  pure (error?, s)

/-- The script of a file: the one it holds, or else the one of the program it holds. -/
def scriptOf (content : Text) : Except Text Script :=
  match Script.decode content with
  | .ok (z, _) => .ok z
  | .error _ =>
    match compileText content with
    | .ok z => .ok z
    | .error e => .error e.message

/-- Lists the script of a file and writes it, as the settings say. -/
def compileFile (c : Console m) (cfg : Config) (path : Text) : m (Option Text) := do
  match ← c.readFile path with
  | .error e => pure (some e)
  | .ok content =>
    match scriptOf content with
    | .error e => pure (some e)
    | .ok z =>
      if cfg.disasm then c.print z.listing
      if cfg.emit.isEmpty then pure none
      else
        match z.encode with
        | .error e => pure (some e.message)
        | .ok bytes => c.writeFile cfg.emit bytes

/-! ## 2. Interactive sessions -/

/-- The history in a file; a file that cannot be read gives none. -/
def loadHistory (c : Console m) (path : Text) : m History := do
  if path.isEmpty then pure []
  else
    match ← c.readFile path with
    | .ok t => pure (History.ofText t)
    | .error _ => pure []

/-- Writes the history to a file. -/
def saveHistory (c : Console m) (path : Text) (h : History) : m Unit := do
  if !path.isEmpty then
    if let some e ← c.writeFile path h.text then
      c.complain ("Error writing history file: " ++ e ++ "\n")

/-- An interactive session. The line editor keeps a history. -/
def converse (c : Console m) (cfg : Config) (s : Session) : m Unit := do
  let editing := !cfg.plainLines
  let history ← if editing then loadHistory c cfg.history else pure []
  if !cfg.quiet then c.print (Repl.banner s.version editing)
  let r ← c.interact editing (Repl.start s cfg.prompt history)
  if editing then saveHistory c cfg.history r.history

/-! ## 3. The whole -/

/-- Does the work on a file and goes on with an interactive session if it fails. -/
def workOn (c : Console m) (cfg : Config) (path : Text) (s : Session) : m ExitCode := do
  let (error?, s) ← if !cfg.emit.isEmpty || cfg.disasm then
      (·, s) <$> compileFile c cfg path
    else runFile c cfg path s
  match error? with
  | none => pure .success
  | some e =>
    c.complain (e ++ "\n")
    if cfg.exitOnFailure then pure .abort
    else do
      converse c cfg s
      pure .success

/-- Does what the settings say. -/
def execute (c : Console m) (cfg : Config) (version : Text) (operands : List Text) : m ExitCode :=
  let s := cfg.session version
  if !cfg.command.isEmpty then runCommand c cfg s
  else
    match operands with
    | path :: _ => workOn c cfg path s
    | [] => do
      converse c cfg s
      pure .success

/-- Does what the settings say, between the start and the end of the profiles. These are made but
    hold nothing; there is none of the memory after a failure. -/
def profiled (c : Console m) (cfg : Config) (version : Text) (operands : List Text) :
    m ExitCode := do
  let error? ← if cfg.cpuProfile.isEmpty then pure none else c.writeFile cfg.cpuProfile []
  match error? with
  | some e =>
    c.print (e ++ "\n")
    pure .abort
  | none =>
    let code ← execute c cfg version operands
    if code = .success ∧ !cfg.memProfile.isEmpty then
      if let some e ← c.writeFile cfg.memProfile [] then c.print (e ++ "\n")
    pure code

/-- The interpreter with its arguments. -/
def run (c : Console m) (version : Text) (home? : Option Text) (args : List Text) : m ExitCode :=
  match Flag.parse Config.flags {} args with
  | .error .helpRequested => do
    c.complain (Flag.usage programName Config.flags)
    pure .success
  | .error e => do
    c.complain (e.message ++ "\n" ++ Flag.usage programName Config.flags)
    pure .misuse
  | .ok (cfg, operands) =>
    match cfg.validate home? operands with
    | .error e => do
      c.complain (programName ++ " command line error: '" ++ e.message ++ "'\n")
      c.print (programName ++ " command line help:\n")
      c.complain (Flag.helpTexts Config.flags)
      pure .failure
    | .ok cfg => profiled c cfg version operands

end SmallLisp.Interpreter
