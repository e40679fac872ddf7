import SmallLisp.CommandLine.Console
import SmallLisp.Options.Flag

/-!
# The command line of the tree printer

The tree printer reads a program on standard input and prints how it is understood: one expression
per line that can be read again, or the tree with its locations.
-/

namespace SmallLisp.TreePrinter

variable {m : Type → Type} [Monad m]

/-- The name under which the tree printer speaks of itself. -/
def programName : String := "zyparse"

/-- The settings: whether the tree is printed. -/
structure Settings where
  tree : Bool := false
deriving DecidableEq, Repr

/-- The flags of the tree printer. -/
def flags : List (Flag Settings) :=
  [⟨"tree", .toggle fun v _ => ⟨v⟩, "print the located syntax tree"⟩]

/-- A program as the settings want it printed. -/
def printed (settings : Settings) (n : Node) : Text :=
  if settings.tree then n.outline else n.items.flatMap fun item => item.render ++ "\n"

/-- The tree printer with its arguments. -/
def run (c : Console m) (args : List Text) : m ExitCode :=
  match Flag.parse flags {} args with
  | .error .helpRequested => do
    c.complain (Flag.usage programName flags)
    pure .success
  | .error e => do
    c.complain (e.message ++ "\n" ++ Flag.usage programName flags)
    pure .misuse
  | .ok (settings, _) => do
    match parse (← c.readInput) with
    | .error e =>
      c.complain (e.message ++ "\n")
      pure .abort
    | .ok n =>
      c.print (printed settings n)
      pure .success

end SmallLisp.TreePrinter
