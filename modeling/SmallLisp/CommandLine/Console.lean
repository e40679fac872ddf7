import SmallLisp.Repl.Basic

/-!
# What a program can do to its surroundings

A command line program reads and writes files, prints, and talks to whoever uses it. What it may use
for that is a `Console`, so that the program itself is the same whether it acts on the world or on a
model of it.
-/

namespace SmallLisp

/-- The means of a command line program. Files are given by their path; an error comes as its
    wording. -/
structure Console (m : Type → Type) where
  /-- The content of a file. -/
  readFile : Text → m (Except Text Text)
  /-- Replaces the content of a file, which is made if there is none. -/
  writeFile : Text → Text → m (Option Text)
  /-- Everything on standard input. -/
  readInput : m Text
  /-- Prints on standard output. -/
  print : Text → m Unit
  /-- Prints on the standard output for errors. -/
  complain : Text → m Unit
  /-- Takes lines from standard input until the session ends, with a line editor or without, and
      prints what it puts out. -/
  interact : (editing : Bool) → Repl → m Repl

/-- How a program ended, as its caller sees it. -/
structure ExitCode where
  code : UInt32
deriving DecidableEq, Repr

namespace ExitCode

/-- All went well. -/
def success : ExitCode := ⟨0⟩

/-- A program given on the command line failed, or the settings do not go together. -/
def failure : ExitCode := ⟨1⟩

/-- The command line cannot be read. -/
def misuse : ExitCode := ⟨2⟩

/-- A file could not be used. -/
def abort : ExitCode := ⟨255⟩

end ExitCode

/-- Takes out of a session what it has put out. -/
def Session.drain (s : Session) : Text × Session := (s.outputText, { s with output := [] })

end SmallLisp
