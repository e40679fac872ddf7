import SmallLisp.Options.Flag
import SmallLisp.Session.Run

/-!
# Settings of the interpreter

What can be set on the command line of the interpreter, the flags for it, and the checks and
defaults that apply once all flags are read.
-/

namespace SmallLisp

/-- The settings of an interpreter. An empty text is a setting that was not made. -/
structure Config where
  /-- A program to run instead of a file or an interactive session. -/
  command : Text := []
  quiet : Bool := false
  trace : Bool := false
  verbose : Bool := false
  /-- How many applications may be nested: zero for the default, -1 for any number. -/
  maxDepth : Int := Session.defaultLimit
  /-- The file to which the script of a program is written. -/
  emit : Text := []
  /-- The script of a program is listed. -/
  disasm : Bool := false
  /-- Lines are read without the line editor. -/
  plainLines : Bool := false
  prompt : Text := []
  /-- The file that keeps the history. -/
  history : Text := []
  countCalls : Bool := false
  /-- There is no interactive session after a program that failed. -/
  exitOnFailure : Bool := false
  cpuProfile : Text := []
  memProfile : Text := []
deriving DecidableEq, Repr

namespace Config

/-- The flags of the interpreter. -/
def flags : List (Flag Config) :=
  [⟨"cpuprofile", .text fun v c => { c with cpuProfile := v }, "write cpu profile to file"⟩,
    ⟨"memprofile", .text fun v c => { c with memProfile := v }, "write mem profile to file"⟩,
    ⟨"exitonfail", .toggle fun v c => { c with exitOnFailure := v },
      "exit on failure instead of starting repl"⟩,
    ⟨"countcalls", .toggle fun v c => { c with countCalls := v },
      "count how many times each function is run"⟩,
    ⟨"c", .text fun v c => { c with command := v }, "expressions to evaluate"⟩,
    ⟨"quiet", .toggle fun v c => { c with quiet := v },
      "start repl without printing the version banner"⟩,
    ⟨"trace", .toggle fun v c => { c with trace := v },
      "trace every function application (very verbose)"⟩,
    ⟨"v", .toggle fun v c => { c with verbose := v }, "verbose internal logging"⟩,
    ⟨"maxdepth", .integer Session.defaultLimit fun v c => { c with maxDepth := v },
      "maximum nesting of function applications; -1 for no limit"⟩,
    ⟨"emit", .text fun v c => { c with emit := v },
      "translate the script argument and write the result to this file"⟩,
    ⟨"disasm", .toggle fun v c => { c with disasm := v },
      "print the translated listing of the script argument"⟩,
    ⟨"noliner", .toggle fun v c => { c with plainLines := v },
      "read lines without the liner line editor"⟩,
    ⟨"prompt", .text fun v c => { c with prompt := v }, "repl prompt"⟩,
    ⟨"history", .text fun v c => { c with history := v }, "repl history file (default ~/.zyhist)"⟩]

/-- Why settings do not go together. -/
inductive Problem where
  | maxDepth (n : Int)
  | nothingToEmit
deriving DecidableEq, Repr

/-- The wording of the problem. -/
def Problem.message : Problem → Text
  | maxDepth n => s!"-maxdepth must be -1 or more, got {n}"
  | nothingToEmit => "-emit needs a script file argument to translate"

/-- The prompt of a session that was given none. -/
def defaultPrompt : Text := "zy> "

/-- Checks the settings and fills in what was not set. The history is kept in the home directory, if
    there is one. -/
def validate (c : Config) (home? : Option Text) (operands : List Text) : Except Problem Config :=
  if c.maxDepth < -1 then .error (.maxDepth c.maxDepth)
  else if !c.emit.isEmpty && operands.isEmpty then .error .nothingToEmit
  else
    let prompt := if c.prompt.isEmpty then defaultPrompt else c.prompt
    let history := match home? with
      | some home => if c.history.isEmpty then home ++ "/.zyhist" else c.history
      | none => c.history
    .ok { c with prompt, history }

/-- A session with these settings. -/
def session (c : Config) (version : Text) : Session :=
  { Session.configured version c.maxDepth c.trace c.countCalls with verbose := c.verbose }

end Config

end SmallLisp
