import SmallLisp.CommandLine.Console

/-!
# A model of the surroundings

A machine has files, standard input that is there from the start, and what was printed so far.
Directories are those on the way to a file or to the working directory. One file is on every
machine: it is empty and stays so.
-/

namespace SmallLisp

/-- A path from the root directory. -/
abbrev Path := List Text

/-- The surroundings of a program. -/
structure Machine where
  /-- The working directory. -/
  directory : Path
  files : List (Path × Text)
  input : Text
  output : Text
  errors : Text

namespace Machine

/-! ## 1. Files -/

/-- Why a file cannot be used. -/
inductive Problem where
  | missing
  | notDirectory
  | isDirectory
  | nameTooLong
  | invalidName
deriving DecidableEq, Repr

/-- The wording of a problem. -/
def Problem.text : Problem → String
  | missing => "no such file or directory"
  | notDirectory => "not a directory"
  | isDirectory => "is a directory"
  | nameTooLong => "file name too long"
  | invalidName => "invalid argument"

/-- The file that takes everything and holds nothing. -/
def nullFile : Path := ["dev", "null"]

/-- The content of a file. -/
def file? (s : Machine) (p : Path) : Option Text :=
  if p = nullFile then some [] else s.files.lookup p

/-- There is a directory at the path. -/
def hasDirectory (s : Machine) (p : Path) : Bool :=
  p.isPrefixOf s.directory
    || (nullFile :: s.files.map Prod.fst).any fun q => p.isPrefixOf q && p != q

/-- The names on the way of a path, which are divided by slashes. -/
def namesOf (t : Text) : List Text := t.splitOn 0x2F

/-- How long a name may be. -/
def nameLimit : Nat := 255

/-- How long a path may not be. -/
def pathLimit : Nat := 4096

/-- Follows names from a directory. -/
def follow (s : Machine) (here : Path) : List Text → Except Problem Path
  | [] => .ok here
  | name :: names =>
    if !s.hasDirectory here then
      .error (if (s.file? here).isSome then .notDirectory else .missing)
    else if nameLimit < name.length then .error .nameTooLong
    else if name.isEmpty || name = (".": Text) then s.follow here names
    else if name = ("..": Text) then s.follow here.dropLast names
    else s.follow (here ++ [name]) names

/-- Follows the names of a path, to a file or directory that may not be there. The path is given in
    full for its length and for where it starts. -/
def locateNames (s : Machine) (t : Text) (names : List Text) : Except Problem Path :=
  if t.isEmpty then .error .missing
  else if t.contains 0 then .error .invalidName
  else if pathLimit ≤ t.length then .error .nameTooLong
  else s.follow (if t.head? = some 0x2F then [] else s.directory) names

/-- The file or directory that a text names, which may not be there. After a slash at the end there
    is an empty name, so that what stands before it must be a directory. -/
def locate (s : Machine) (t : Text) : Except Problem Path := s.locateNames t (namesOf t)

/-- The place of a file to write. A slash at the end asks for a directory, which cannot be written;
    the name before it need not be there. -/
def locateNew (s : Machine) (t : Text) : Except Problem Path :=
  match s.locateNames t ((namesOf t).reverse.dropWhile List.isEmpty).reverse with
  | .error e => .error e
  | .ok p =>
    if s.hasDirectory p || t.getLast? == some 0x2F then .error .isDirectory else .ok p

/-- The wording of an error with a file. -/
def trouble (action : String) (path : Text) (p : Problem) : Text :=
  action ++ " " ++ path ++ ": " ++ p.text

/-- The content of the file that a text names. -/
def read (s : Machine) (t : Text) : Except Text Text :=
  match s.locate t with
  | .error e => .error (trouble "open" t e)
  | .ok p =>
    match s.file? p with
    | some content => .ok content
    | none =>
      if s.hasDirectory p then .error (trouble "read" t .isDirectory)
      else .error (trouble "open" t .missing)

/-- The machine after a file was written. -/
def write (s : Machine) (t content : Text) : Except Text Machine :=
  match s.locateNew t with
  | .error e => .error (trouble "open" t e)
  | .ok p => .ok { s with files := (p, content) :: s.files.filter (·.1 != p) }

/-! ## 2. The console of a machine -/

/-- Acts on a machine. -/
def console : Console (StateM Machine) where
  readFile t := do return (← get).read t
  writeFile t content := fun s =>
    match s.write t content with
    | .ok s => (none, s)
    | .error e => (some e, s)
  readInput := do return (← get).input
  print t := modify fun s => { s with output := s.output ++ t }
  complain t := modify fun s => { s with errors := s.errors ++ t }
  interact editing r := fun s =>
    let lines := if editing then Lines.edited s.input else Lines.plain s.input
    let r := r.run lines
    (r, { s with output := s.output ++ r.session.outputText })

end Machine

end SmallLisp
