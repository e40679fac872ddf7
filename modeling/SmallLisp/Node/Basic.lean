import SmallLisp.Loc
import SmallLisp.Number.Layout

/-!
# Syntax trees

What source text is read into. Every node has a location and says whether it was quoted. Two
renderings stand beside the type: `render` writes source form again, `outline` lists one node per
line with its location. `sameShape` compares trees and looks at everything but locations.
-/

namespace SmallLisp

/-- Where a node starts and whether a quote stands before it. -/
structure NodeInfo where
  loc : Loc
  quoted : Bool
deriving DecidableEq, Repr

/-- A syntax tree. A program is a `progn`; `unit` stands for the absence of an expression. -/
inductive Node where
  | unit (info : NodeInfo)
  | atom (info : NodeInfo) (name : String)
  | string (info : NodeInfo) (text : String)
  | number (info : NodeInfo) (x : Float)
  | bool (info : NodeInfo) (b : Bool)
  | list (info : NodeInfo) (items : List Node)
  | progn (info : NodeInfo) (items : List Node)

namespace Node

instance : Inhabited Node := ⟨.unit ⟨Loc.unknown, false⟩⟩

/-- The location and the quote of a node. -/
def info : Node → NodeInfo
  | unit i | atom i _ | string i _ | number i _ | bool i _ | list i _ | progn i _ => i

/-- Where the node starts. -/
def loc (n : Node) : Loc := n.info.loc

/-- A quote stands before the node. -/
def isQuoted (n : Node) : Bool := n.info.quoted

/-- The node with its quote set or removed. -/
def withQuote (q : Bool) : Node → Node
  | unit i => unit { i with quoted := q }
  | atom i name => atom { i with quoted := q } name
  | string i text => string { i with quoted := q } text
  | number i x => number { i with quoted := q } x
  | bool i b => bool { i with quoted := q } b
  | list i items => list { i with quoted := q } items
  | progn i items => progn { i with quoted := q } items

/-- The parts of a list or a program. -/
def items : Node → List Node
  | list _ items | progn _ items => items
  | _ => []

/-- The names of the node kinds, in the order of their codes. -/
def kindNames : List String := ["Unit", "Atom", "String", "Number", "Bool", "List", "Progn"]

/-- The name of the node kind with this code. -/
def nameOfCode (code : Int) : String :=
  let unnamed := s!"NodeKind({code})"
  match code with
  | .ofNat n => kindNames[n]?.getD unnamed
  | .negSucc _ => unnamed

/-- The name of a node's kind. -/
def kindName : Node → String
  | unit _ => "Unit"
  | atom _ _ => "Atom"
  | string _ _ => "String"
  | number _ _ => "Number"
  | bool _ _ => "Bool"
  | list _ _ => "List"
  | progn _ _ => "Progn"

/-! ## 1. Source form -/

/-- The quote of a node, in source form. -/
def quoteMark (i : NodeInfo) : String := if i.quoted then "'" else ""

mutual

/-- A node in source form. Reading it again gives a tree of the same shape. -/
def render : Node → String
  | unit i => quoteMark i ++ "()"
  | atom i name => quoteMark i ++ name
  | string i text => quoteMark i ++ "\"" ++ text ++ "\""
  | number i x => quoteMark i ++ Number.plain x
  | bool i b => quoteMark i ++ (if b then "#t" else "#f")
  | list i items => quoteMark i ++ "(" ++ renderAll items ++ ")"
  | progn _ items => renderAll items

/-- Nodes in source form with a blank between neighbours. -/
def renderAll : List Node → String
  | [] => ""
  | [n] => n.render
  | n :: m :: more => n.render ++ " " ++ renderAll (m :: more)

end

/-! ## 2. Outline -/

/-- The outline of a line: location, indentation, quote and content. -/
def outlineLine (i : NodeInfo) (indent content : String) : String :=
  s!"{i.loc.line}:{i.loc.column}:" ++ indent ++ " " ++ quoteMark i ++ content ++ "\n"

mutual

/-- One line per node, parts indented under their list. -/
def outlineAt (indent : String) : Node → String
  | unit i => outlineLine i indent "U"
  | atom i name => outlineLine i indent ("A: " ++ name)
  | string i text => outlineLine i indent ("S: " ++ text)
  | number i x => outlineLine i indent ("N: " ++ Number.plain x)
  | bool i b => outlineLine i indent (if b then "B: true" else "B: false")
  | list i items => outlineLine i indent "List:" ++ outlineAll (indent ++ "  ") items
  | progn i items => outlineLine i indent "Progn:" ++ outlineAll (indent ++ "  ") items

/-- The outlines of nodes, one after the other. -/
def outlineAll (indent : String) : List Node → String
  | [] => ""
  | n :: more => n.outlineAt indent ++ outlineAll indent more

end

/-- The located outline of a tree. -/
def outline (n : Node) : String := n.outlineAt ""

/-! ## 3. Shape -/

mutual

/-- The trees differ at most in locations. Numbers are compared as numbers. -/
def sameShape : Node → Node → Bool
  | unit i, unit j => i.quoted == j.quoted
  | atom i a, atom j b => i.quoted == j.quoted && a == b
  | string i a, string j b => i.quoted == j.quoted && a == b
  | number i x, number j y => i.quoted == j.quoted && x == y
  | bool i a, bool j b => i.quoted == j.quoted && a == b
  | list i xs, list j ys => i.quoted == j.quoted && sameShapes xs ys
  | progn i xs, progn j ys => i.quoted == j.quoted && sameShapes xs ys
  | _, _ => false

/-- The trees correspond one to one and differ at most in locations. -/
def sameShapes : List Node → List Node → Bool
  | [], [] => true
  | n :: ns, m :: ms => n.sameShape m && sameShapes ns ms
  | _, _ => false

end

end Node

end SmallLisp
