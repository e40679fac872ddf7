import SmallLisp.Scope

/-!
# Sessions

The state of an interpreter: the frames, the settings of evaluation, and what the program has put
out so far. Whoever watches a session is an `Observer` and is told about every application of a
function, before it starts and, if it succeeds, after it.
-/

namespace SmallLisp

/-! ## 1. What a session puts out -/

/-- Text that a session puts out: what the program prints, and the log. -/
inductive Output where
  | printed (t : Text)
  | logged (t : Text)
deriving DecidableEq, Repr

/-- The text of a piece of output. -/
def Output.text : Output → Text
  | printed t | logged t => t

/-- What is told about the applications of a program. -/
inductive Observer where
  /-- Counts applications by name. -/
  | tally
  /-- Writes them down. -/
  | journal
deriving DecidableEq, Repr

/-- What is written down about an application. Arguments and results are in source form; `depth` is
    the number of applications in progress. -/
inductive Event where
  | before (name : Text) (args : Text) (depth : Nat)
  | after (name : Text) (result : Text) (depth : Nat)
  | probe (name : Text) (depth scopes : Nat) (args : Text)
deriving DecidableEq, Repr

/-- The wording of an event. -/
def Event.line : Event → Text
  | before name args _ => "pre " ++ name ++ ": " ++ args
  | after name result _ => "post " ++ name ++ ": " ++ result
  | probe name depth scopes args =>
    "probe " ++ name ++ (s!" depth {depth} scopes {scopes}: ") ++ args

/-- How often each name occurred, names in the order of their first occurrence. -/
abbrev Tally := List (Text × Nat)

/-- One occurrence more. -/
def Tally.bump (name : Text) : Tally → Tally
  | [] => [(name, 1)]
  | (n, k) :: more => if n = name then (n, k + 1) :: more else (n, k) :: Tally.bump name more

/-- How often a name occurred. -/
def Tally.count (name : Text) (t : Tally) : Nat := (t.lookup name).getD 0

/-- A line per name, in bytewise order. -/
def Tally.listing (t : Tally) : Text :=
  (t.mergeSort fun a b => Text.le a.1 b.1).flatMap fun (name, k) =>
    "\t" ++ name ++ (s!": {k}\n")

/-! ## 2. The state -/

/-- How dumps show the functions inside values: the text of a function at a level of nesting, given
    the frames that closures were made in. The interpreter is handed one by its host. -/
abbrev Printer := Store → Nat → Value → Text

/-- Functions as other output shows them. -/
def Printer.plain : Printer := fun _ _ v => v.sexp

/-- The state of an interpreter. Output and journal are kept newest first. -/
structure Session where
  /-- What `*version*` is bound to. -/
  version : Text
  store : Store
  /-- The frame in which programs run. -/
  root : FrameId
  /-- How many applications may be nested; zero for any number. -/
  limit : Nat
  /-- Log every application. -/
  trace : Bool
  /-- Log what is read from interchange formats. -/
  verbose : Bool
  /-- How dumps show functions. -/
  printer : Printer
  /-- How many applications are in progress. -/
  depth : Nat
  observers : List Observer
  /-- Applications started, and applications that succeeded. -/
  started : Tally
  finished : Tally
  journal : List Event
  output : List Output

/-- The bindings every program starts with. -/
def preludeBindings (version : Text) : List (Text × Value) :=
  Primitive.all.map (fun p => (Text.ofString p.name, Value.native (.primitive p)))
    ++ [(Text.ofString "*version*", Value.string version)]

/-- A new root frame that holds the prelude. -/
def Store.newPrelude (s : Store) (version : Text) : FrameId × Store :=
  s.alloc ⟨"global", none, preludeBindings version⟩

namespace Session

/-- How many applications may be nested unless told otherwise. -/
def defaultLimit : Nat := 10000

/-- A session with the prelude and nothing else. -/
def fresh (version : Text) : Session :=
  let (root, store) := Store.empty.newPrelude version
  ⟨version, store, root, defaultLimit, false, false, .plain, 0, [], [], [], [], []⟩

/-- Forgets every definition of the program and starts over from the prelude. Settings and observers
    stay. -/
def clear (s : Session) : Session :=
  let (root, store) := s.store.newPrelude s.version
  { s with root, store }

/-- Binds a name in the root frame. -/
def addGlobal (s : Session) (name : Text) (v : Value) : Session :=
  { s with store := s.store.set s.root name v }

/-- The value of a global name. -/
def find? (s : Session) (name : Text) : Option Value := s.store.get? s.root name

/-! ## 3. Output and observers -/

/-- Prints a text. -/
def print (s : Session) (t : Text) : Session := { s with output := .printed t :: s.output }

/-- Writes a line to the log. -/
def log (s : Session) (line : Text) : Session :=
  { s with output := .logged (line ++ "\n") :: s.output }

/-- Everything printed so far. -/
def printedText (s : Session) : Text :=
  s.output.reverse.flatMap fun
    | .printed t => t
    | .logged _ => []

/-- Everything logged so far. -/
def loggedText (s : Session) : Text :=
  s.output.reverse.flatMap fun
    | .printed _ => []
    | .logged t => t

/-- Everything printed and logged so far, in order. -/
def outputText (s : Session) : Text := s.output.reverse.flatMap Output.text

/-- Writes down an event. -/
def record (s : Session) (e : Event) : Session := { s with journal := e :: s.journal }

/-- Starts to count applications, unless they are counted already. -/
def countCalls (s : Session) : Session :=
  if s.observers.contains .tally then s else { s with observers := s.observers ++ [.tally] }

/-- Tells an observer that an application starts. -/
def tellBefore (name : Text) (args : List Value) (s : Session) : Observer → Session
  | .tally => { s with started := s.started.bump name }
  | .journal => s.record (.before name (Value.joined args) s.depth)

/-- Tells an observer that an application succeeded. -/
def tellAfter (name : Text) (result : Value) (s : Session) : Observer → Session
  | .tally => { s with finished := s.finished.bump name }
  | .journal => s.record (.after name result.sexp s.depth)

/-- The log line of an application, indented by its depth. -/
def traceLine (s : Session) (name : Text) (args : List Value) : Text :=
  List.replicate (2 * s.depth) 0x20 ++ (("(" ++ name ++ " " ++ Value.joined args ++ ")" : Text))

/-- An application starts: it is logged if tracing is on, and the observers are told. -/
def announce (s : Session) (name : Text) (args : List Value) : Session :=
  let s := if s.trace then s.log (s.traceLine name args) else s
  s.observers.foldl (tellBefore name args) s

/-- An application succeeded: the observers are told. -/
def conclude (s : Session) (name : Text) (result : Value) : Session :=
  s.observers.foldl (tellAfter name result) s

/-- The counts of applications by name. -/
def countsText (s : Session) : Text :=
  "Pre:\n" ++ s.started.listing ++ "Post:\n" ++ s.finished.listing

end Session

end SmallLisp
