import SmallLisp.Value.Basic

/-!
# Scopes

Bindings live in frames. A frame has a name, its bindings, and a parent in which a name is looked up
that it does not bind itself; the frames form a forest. A write goes to one frame and never to its
parents. Frames are never discarded: a closure keeps the number of the frame it was made in.

A frame is always made after its parent, so a chain of parents from frame `i` has at most `i + 1`
members, and that is how far `Store.chain` follows it.
-/

namespace SmallLisp

/-! ## 1. Frames -/

/-- A frame of bindings. No name is bound twice. -/
structure Frame where
  name : Text
  parent : Option FrameId
  bindings : List (Text × Value)

namespace Frame

/-- The value a frame itself binds to a name. -/
def get? (f : Frame) (name : Text) : Option Value := f.bindings.lookup name

/-- Replaces the value of a name in a list of bindings, or adds the name at the end. -/
def bind (name : Text) (v : Value) : List (Text × Value) → List (Text × Value)
  | [] => [(name, v)]
  | (n, w) :: more => if n = name then (n, v) :: more else (n, w) :: bind name v more

/-- The frame with a name bound to a value. -/
def set (f : Frame) (name : Text) (v : Value) : Frame :=
  { f with bindings := bind name v f.bindings }

/-- The names a frame binds, in bytewise order. -/
def names (f : Frame) : List Text := Text.sort (f.bindings.map Prod.fst)

end Frame

/-! ## 2. The store -/

/-- All frames, by number. -/
structure Store where
  frames : Array Frame

namespace Store

/-- No frames. -/
def empty : Store := ⟨#[]⟩

/-- The frame with this number. -/
def frame? (s : Store) (i : FrameId) : Option Frame := s.frames[i]?

/-- A new frame: its number, and the store that has it. -/
def alloc (s : Store) (f : Frame) : FrameId × Store := (s.frames.size, ⟨s.frames.push f⟩)

/-- A new empty frame without a parent. -/
def newRoot (s : Store) (name : Text) : FrameId × Store := s.alloc ⟨name, none, []⟩

/-- A new empty frame inside frame `i`. -/
def push (s : Store) (i : FrameId) (name : Text) : FrameId × Store := s.alloc ⟨name, some i, []⟩

/-- Binds a name in frame `i`, and in no other. -/
def set (s : Store) (i : FrameId) (name : Text) (v : Value) : Store :=
  ⟨s.frames.modify i (·.set name v)⟩

/-- The value frame `i` itself binds to a name. -/
def local? (s : Store) (i : FrameId) (name : Text) : Option Value :=
  (s.frame? i).bind (·.get? name)

/-- The frame in which frame `i` is nested. -/
def parent? (s : Store) (i : FrameId) : Option FrameId := (s.frame? i).bind (·.parent)

/-- At most `n` frames from frame `i` outwards. -/
def chainUpTo (s : Store) : Nat → FrameId → List FrameId
  | 0, _ => []
  | n + 1, i =>
    match s.frame? i with
    | none => []
    | some f =>
      match f.parent with
      | none => [i]
      | some p => i :: s.chainUpTo n p

/-- The frames from frame `i` outwards to its root. -/
def chain (s : Store) (i : FrameId) : List FrameId := s.chainUpTo (i + 1) i

/-- The value of a name seen from frame `i`: the nearest binding. -/
def get? (s : Store) (i : FrameId) (name : Text) : Option Value :=
  (s.chain i).findSome? (s.local? · name)

/-- How many frames there are from frame `i` outwards. -/
def depth (s : Store) (i : FrameId) : Nat := (s.chain i).length

/-- The outermost frame around frame `i`. -/
def rootOf (s : Store) (i : FrameId) : FrameId := (s.chain i).getLast?.getD i

/-- The name of frame `i`. -/
def nameOf (s : Store) (i : FrameId) : Text := ((s.frame? i).map Frame.name).getD []

/-- The names frame `i` binds, in bytewise order. -/
def names (s : Store) (i : FrameId) : List Text := ((s.frame? i).map Frame.names).getD []

end Store

/-! ## 3. Listings -/

/-- The value is a native function. -/
def Value.isNative : Value → Bool
  | .native _ => true
  | _ => false

/-- The listing of one frame, indented by `indent` blanks. Native functions are only counted unless
    `natives` asks for them. -/
def Frame.listing (f : Frame) (indent : Nat) (natives : Bool) : Text :=
  let blanks (n : Nat) : Text := List.replicate n 0x20
  let line (t : Text) : Text := blanks (indent + 4) ++ t ++ "\n"
  let shown := f.bindings.filter fun (_, v) => natives || ! v.isNative
  let hidden := f.bindings.length - shown.length
  let sorted := shown.mergeSort fun a b => Text.le a.1 b.1
  let name : Text := if f.name.isEmpty then "(anonymous)" else f.name
  blanks indent ++ "scope " ++ name ++ "\n"
    ++ (if f.bindings.isEmpty then line "empty-scope: no symbols" else [])
    ++ sorted.flatMap (fun (n, v) => line (n ++ " -> " ++ v.sexp))
    ++ (if hidden = 0 then [] else line (s!"({hidden} native functions omitted for brevity)"))

/-- The listings of frames, each indented four blanks more than the one before. -/
def Store.listings (s : Store) (natives : Bool) : Nat → List FrameId → Text
  | _, [] => []
  | indent, i :: more =>
    ((s.frame? i).map (·.listing indent natives)).getD [] ++ s.listings natives (indent + 4) more

/-- The bindings of every frame from frame `i` outwards, under a label. -/
def Store.listing (s : Store) (i : FrameId) (label : Text) (natives : Bool) : Text :=
  label ++ "\n" ++ s.listings natives 4 (s.chain i)

end SmallLisp
