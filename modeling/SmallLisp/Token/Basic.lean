import SmallLisp.Loc
import SmallLisp.Number.Layout

/-!
# Tokens

The lexical units of source text, each with the location of its first character.
-/

namespace SmallLisp

/-- The three kinds of list delimiters. They mean the same, but a list ends with the kind it began
    with. -/
inductive Bracket where
  | paren
  | square
  | curly
deriving DecidableEq, Repr

namespace Bracket

/-- The character that begins a list. -/
def openChar : Bracket → Char
  | paren => '('
  | square => '['
  | curly => '\x7b'

/-- The character that ends a list. -/
def closeChar : Bracket → Char
  | paren => ')'
  | square => ']'
  | curly => '\x7d'

end Bracket

/-- What a token is. Numbers keep the text they were read from. -/
inductive TokenKind where
  | eof
  | number (text : String) (x : Float)
  | boolean (b : Bool)
  | string (s : String)
  | atom (name : String)
  | opener (b : Bracket)
  | closer (b : Bracket)
  | quote
deriving DecidableEq

namespace TokenKind

/-- The names of the token classes, in the order of their codes. -/
def classNames : List String :=
  ["end-of-input", "number", "boolean", "string", "atom", "(", ")", "[", "]", "\x7b", "\x7d", "'"]

/-- The name of the token class with this code. -/
def nameOfCode (code : Int) : String :=
  let unnamed := s!"TokenType({code})"
  match code with
  | .ofNat n => classNames[n]?.getD unnamed
  | .negSucc _ => unnamed

/-- The name of a token's class. -/
def className : TokenKind → String
  | eof => "end-of-input"
  | number _ _ => "number"
  | boolean _ => "boolean"
  | string _ => "string"
  | atom _ => "atom"
  | opener b => b.openChar.toString
  | closer b => b.closeChar.toString
  | quote => "'"

/-- How a token is shown. -/
def display : TokenKind → String
  | eof => "<end>"
  | number _ x => Number.general x
  | boolean b => if b then "#t" else "#f"
  | string s => "\"" ++ s ++ "\""
  | atom name => name
  | k => k.className

end TokenKind

/-- A token and the location of its first character. -/
structure Token where
  kind : TokenKind
  loc : Loc
deriving DecidableEq

end SmallLisp
