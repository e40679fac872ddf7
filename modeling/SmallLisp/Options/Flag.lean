import SmallLisp.Options.Numeral
import SmallLisp.Text.Quoted

/-!
# Flags

Flags come before the other arguments of a command line, with one or two hyphens before their name.
A flag with a value takes it from after an equals sign or from the next argument; a flag that is
only on or off takes a value from after an equals sign alone. Two hyphens on their own end the
flags, and so does the first argument that is none.

`σ` is what the flags set.
-/

namespace SmallLisp

/-! ## 1. Flags and what they set -/

/-- What the value of a flag is, and what it sets. -/
inductive FlagValue (σ : Type) where
  | toggle (set : Bool → σ → σ)
  | text (set : Text → σ → σ)
  /-- The number is the value of a flag that is not given. -/
  | integer (default : Int) (set : Int → σ → σ)

/-- A flag: its name, its value, and the help for it. -/
structure Flag (σ : Type) where
  name : String
  value : FlagValue σ
  help : String

/-- Why flags cannot be read. -/
inductive FlagError where
  | badSyntax (arg : Text)
  | undefined (name : Text)
  | helpRequested
  | needsArgument (name : Text)
  | badToggle (value name : Text)
  | badInteger (value name : Text) (flaw : Numeral.Flaw)
deriving DecidableEq, Repr

/-- What is wrong with a number, in words. -/
def Numeral.Flaw.text : Numeral.Flaw → String
  | malformed => "parse error"
  | outOfRange => "value out of range"

/-- The wording of the error. -/
def FlagError.message : FlagError → Text
  | badSyntax arg => "bad flag syntax: " ++ arg
  | undefined name => "flag provided but not defined: -" ++ name
  | helpRequested => "flag: help requested"
  | needsArgument name => "flag needs an argument: -" ++ name
  | badToggle value name =>
    "invalid boolean value " ++ value.quoted ++ " for -" ++ name ++ ": parse error"
  | badInteger value name flaw =>
    "invalid value " ++ value.quoted ++ " for flag -" ++ name ++ ": " ++ flaw.text

namespace Flag

/-- A truth value as flags give it. -/
def toggle? (t : Text) : Option Bool :=
  if (["1", "t", "T", "TRUE", "true", "True"].map Text.ofString).contains t then some true
  else if (["0", "f", "F", "FALSE", "false", "False"].map Text.ofString).contains t then some false
  else none

/-! ## 2. Reading -/

/-- The name in an argument that is a flag, and the value after the equals sign if there is one. The
    equals sign is not the first character. -/
def split (body : Text) : Text × Option Text :=
  match body with
  | [] => ([], none)
  | b :: t =>
    match t.dropWhile (· != 0x3D) with
    | [] => (body, none)
    | _ :: value => (b :: t.takeWhile (· != 0x3D), some value)

/-- What an argument is to the reader of flags. -/
inductive Argument where
  /-- The end of the flags, which is not one of the other arguments. -/
  | terminator
  /-- One of the other arguments. -/
  | operand
  /-- The text after the hyphens of a flag. -/
  | flag (body : Text)
deriving DecidableEq, Repr

/-- Tells flags from other arguments. -/
def classify (arg : Text) : Argument :=
  match arg with
  | [0x2D, 0x2D] => .terminator
  | 0x2D :: 0x2D :: body => .flag body
  | 0x2D :: b :: body => .flag (b :: body)
  | _ => .operand

/-- The text after the hyphens cannot start with another hyphen or an equals sign. -/
def isNamed (body : Text) : Bool :=
  match body with
  | [] => false
  | b :: _ => b != 0x2D && b != 0x3D

/-- The error for a name that no flag has. -/
def unknownName (name : Text) : FlagError :=
  if name = ("help" : Text) ∨ name = ("h" : Text) then .helpRequested else .undefined name

/-- Sets what a flag with this value sets. -/
def assign {σ : Type} (flag : Flag σ) (value : Text) (s : σ) : Except FlagError σ :=
  match flag.value with
  | .toggle set =>
    match toggle? value with
    | some b => .ok (set b s)
    | none => .error (.badToggle value flag.name)
  | .text set => .ok (set value s)
  | .integer _ set =>
    match Numeral.integer value with
    | .ok n => .ok (set n s)
    | .error flaw => .error (.badInteger value flag.name flaw)

/-- The flag is only on or off. -/
def isToggle {σ : Type} (flag : Flag σ) : Bool :=
  match flag.value with
  | .toggle _ => true
  | _ => false

/-- Reads the flags at the front of some arguments and gives what they set, with the arguments that
    are left. -/
def parse {σ : Type} (flags : List (Flag σ)) (s : σ) : List Text → Except FlagError (σ × List Text)
  | [] => .ok (s, [])
  | arg :: args =>
    match classify arg with
    | .terminator => .ok (s, args)
    | .operand => .ok (s, arg :: args)
    | .flag body =>
      if isNamed body then
        let (name, value?) := split body
        match flags.find? (fun f => Text.ofString f.name == name) with
        | none => .error (unknownName name)
        | some flag =>
          match value?, args with
          | some value, args =>
            match flag.assign value s with
            | .ok s => parse flags s args
            | .error e => .error e
          | none, args =>
            if flag.isToggle then
              match flag.assign "true" s with
              | .ok s => parse flags s args
              | .error e => .error e
            else
              match args with
              | [] => .error (.needsArgument name)
              | value :: args =>
                match flag.assign value s with
                | .ok s => parse flags s args
                | .error e => .error e
      else .error (.badSyntax arg)

/-! ## 3. Help -/

/-- The help for a flag: its name, the kind of its value, what it is for, and its default if that is
    not empty. The help for a flag of one letter without a value stands on the same line. -/
def helpText {σ : Type} (flag : Flag σ) : Text :=
  let kind := match flag.value with
    | .toggle _ => ""
    | .text _ => " string"
    | .integer _ _ => " int"
  let default := match flag.value with
    | .integer n _ => if n = 0 then "" else s!" (default {n})"
    | _ => ""
  let first := "  -" ++ flag.name ++ kind
  first ++ (if first.length ≤ 4 then "\t" else "\n    \t") ++ flag.help ++ default ++ "\n"

/-- The help for some flags, in the order of their names. -/
def helpTexts {σ : Type} (flags : List (Flag σ)) : Text :=
  let sorted := flags.mergeSort fun a b => Text.le (Text.ofString a.name) (Text.ofString b.name)
  sorted.flatMap helpText

/-- What a program shows when its flags are wrong. -/
def usage {σ : Type} (program : String) (flags : List (Flag σ)) : Text :=
  "Usage of " ++ program ++ ":\n" ++ helpTexts flags

end Flag

end SmallLisp
