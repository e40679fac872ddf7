import SmallLisp.Text.Quoted
import SmallLisp.Value.Basic

/-!
# Dumps of values

The inner structure of a value, one part per line and indented by tabs, every part with its type.

How a function is shown inside a value is not up to the value: it takes the frame in which a closure
was made. So it is a parameter here, `shown`, which is given the level of nesting and the function.
-/

namespace SmallLisp.Value

/-- A line of a dump at a level of nesting. -/
def dumpLine (level : Nat) (t : Text) : Text :=
  let tabs : Text := List.replicate level 0x09
  tabs ++ t ++ "\n"

/-- The location of an atom or a list. -/
def dumpLoc (level : Nat) (l : Loc) : Text :=
  dumpLine level "Loc: (zylisp.Loc)(zylisp.Loc\x7b"
    ++ dumpLine (level + 1) (s!"Line:   (int)({l.line}),")
    ++ dumpLine (level + 1) (s!"Column: (int)({l.column}),")
    ++ dumpLine level "\x7d),"

section Shown

variable (shown : Nat → Value → Text)

/-- The value is written on a single line at a level of nesting. -/
def isOneLine (level : Nat) : Value → Bool
  | unit | number _ | string _ | bool _ => true
  | v@(native _) | v@(closure _ _ _ _) => !(shown level v).contains 0x0A
  | _ => false

mutual

/-- A value at a level of nesting, with the text before it on its first line and the text after it
    on its last. -/
def dumpAt (level : Nat) (before after : Text) : Value → Text
  | unit => dumpLine level (before ++ "(zylisp.SexpSentinel)(0)" ++ after)
  | number x =>
    dumpLine level (before ++ "(zylisp.SexpNumber)(" ++ Number.general x ++ ")" ++ after)
  | string s => dumpLine level (before ++ "(zylisp.SexpStr)(" ++ s.quoted ++ ")" ++ after)
  | bool b =>
    let shown := if b then "true" else "false"
    dumpLine level (before ++ "(zylisp.SexpBool)(" ++ shown ++ ")" ++ after)
  | atom name l =>
    dumpLine level (before ++ "(*zylisp.SexpAtom)(&zylisp.SexpAtom\x7b")
      ++ dumpLine (level + 1) ("Name: (string)(" ++ name.quoted ++ "),")
      ++ dumpLoc (level + 1) l
      ++ dumpLine level ("\x7d)" ++ after)
  | list items l =>
    dumpLine level (before ++ "(*zylisp.SexpList)(&zylisp.SexpList\x7b")
      ++ dumpField (level + 1) "Items: " items
      ++ dumpLoc (level + 1) l
      ++ dumpLine level ("\x7d)" ++ after)
  | sequence body =>
    dumpLine level (before ++ "(*zylisp.SexpDo)(&zylisp.SexpDo\x7b")
      ++ dumpField (level + 1) "Body: " body
      ++ dumpLine level ("\x7d)" ++ after)
  | quote v applied =>
    let flag : Text := if applied then "applied: (bool)(true)," else "applied: (bool)(false),"
    let field : Text := if v.isOneLine shown (level + 1) then "Val:     " else "Val: "
    dumpLine level (before ++ "(*zylisp.SexpQuote)(&zylisp.SexpQuote\x7b")
      ++ dumpAt (level + 1) field "," v
      ++ dumpLine (level + 1) flag
      ++ dumpLine level ("\x7d)" ++ after)
  | v@(native _) | v@(closure _ _ _ _) => dumpLine level (before ++ shown level v ++ after)

/-- The named field of a structure that holds values. -/
def dumpField (level : Nat) (field : Text) : List Value → Text
  | [] => dumpLine level (field ++ "([]zylisp.Value)([]zylisp.Value\x7b\x7d),")
  | v :: vs =>
    dumpLine level (field ++ "([]zylisp.Value)([]zylisp.Value\x7b")
      ++ dumpAll (level + 1) (v :: vs)
      ++ dumpLine level "\x7d),"

/-- Values one after the other, each with a comma. -/
def dumpAll (level : Nat) : List Value → Text
  | [] => []
  | v :: vs => dumpAt level [] "," v ++ dumpAll level vs

end

/-- The parameters of a closure, which may have no list of them or an empty one. -/
def dumpParams : Option (List Text) → Text
  | none => dumpLine 0 "([]string)(nil)"
  | some [] => dumpLine 0 "([]string)([]string\x7b\x7d)"
  | some params =>
    dumpLine 0 "([]string)([]string\x7b"
      ++ params.flatMap (fun p => dumpLine 1 ("(string)(" ++ p.quoted ++ "),"))
      ++ dumpLine 0 "\x7d)"

/-- The dump of a value. A closure by itself is shown by its name, its parameters and its body. -/
def dump : Value → Text
  | closure name params body _ =>
    dumpLine 0 ("(string)(" ++ name.quoted ++ ")") ++ dumpParams params
      ++ dumpAt shown 0 [] [] (.sequence body)
  | v => dumpAt shown 0 [] [] v

end Shown

end SmallLisp.Value
