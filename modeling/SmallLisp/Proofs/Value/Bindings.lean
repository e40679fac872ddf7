import SmallLisp.Proofs.Value.Likeness
import SmallLisp.Scope

/-!
# Bindings that are alike

Bindings of the same names, in the same order, to values that are alike (`Bindings.Like`). A name is
looked up in both with values that are alike, a new binding keeps them alike, and they are listed
alike.
-/

namespace SmallLisp

/-- The bindings are of the same names, to values that are alike. -/
abbrev Bindings.Like (L : Loc → Loc → Prop) (F : FrameId → FrameId → Prop) :
    List (Text × Value) → List (Text × Value) → Prop :=
  List.Forall₂ fun b b' => b.1 = b'.1 ∧ Value.Like L F b.2 b'.2

/-- What a listing shows of some bindings: their names, and their values in source form. -/
def Bindings.seen (natives : Bool) (bs : List (Text × Value)) : List (Text × Text) :=
  (bs.filter fun b => natives || ! b.2.isNative).map fun b => (b.1, b.2.sexp)

namespace Bindings.Like

variable {L : Loc → Loc → Prop} {F F' : FrameId → FrameId → Prop} {bs bs' : List (Text × Value)}

theorem mono (hF : ∀ i j, F i j → F' i j) (h : Bindings.Like L F bs bs') :
    Bindings.Like L F' bs bs' := h.imp fun _ _ hb => ⟨hb.1, hb.2.mono hF⟩

theorem lookup (h : Bindings.Like L F bs bs') (name : Text) :
    Option.Rel (Value.Like L F) (bs.lookup name) (bs'.lookup name) := by
  induction h with
  | nil => exact .none
  | cons hb _ ih =>
    rw [List.lookup_cons, List.lookup_cons, ← hb.1]
    split
    · exact .some hb.2
    · exact ih

theorem bind (h : Bindings.Like L F bs bs') (name : Text) {v v' : Value} (hv : v.Like L F v') :
    Bindings.Like L F (Frame.bind name v bs) (Frame.bind name v' bs') := by
  induction h with
  | nil => exact .cons ⟨rfl, hv⟩ .nil
  | cons hb hbs ih =>
    unfold Frame.bind
    rw [← hb.1]
    split
    · exact .cons ⟨rfl, hv⟩ hbs
    · exact .cons ⟨rfl, hb.2⟩ ih

theorem seen (h : Bindings.Like L F bs bs') (natives : Bool) :
    Bindings.seen natives bs = Bindings.seen natives bs' := by
  unfold Bindings.seen
  induction h with
  | nil => rfl
  | cons hb _ ih =>
    rw [List.filter_cons, List.filter_cons, hb.2.isNative]
    split
    · rw [List.map_cons, List.map_cons, ih, hb.1, hb.2.sexp]
    · exact ih

theorem zip {vals vals' : List Value} (h : Value.AllLike L F vals vals') (params : List Text) :
    Bindings.Like L F (params.zip vals) (params.zip vals') := by
  induction h generalizing params with
  | nil =>
    rw [List.zip_nil_right]
    exact .nil
  | cons hv _ ih =>
    cases params with
    | nil => exact .nil
    | cons p ps => exact .cons ⟨rfl, hv⟩ (ih ps)

end Bindings.Like

/-- The listing of a frame shows no more of it than its name, how much it binds, and what is seen of
    that. -/
theorem Frame.listing_of_seen {f f' : Frame} {natives : Bool} (hname : f.name = f'.name)
    (hcount : f.bindings.length = f'.bindings.length)
    (hseen : Bindings.seen natives f.bindings = Bindings.seen natives f'.bindings) (indent : Nat) :
    f.listing indent natives = f'.listing indent natives := by
  have hempty : f.bindings.isEmpty = f'.bindings.isEmpty := by
    rw [Bool.eq_iff_iff, List.isEmpty_iff_length_eq_zero, List.isEmpty_iff_length_eq_zero, hcount]
  have hshown := congrArg List.length hseen
  unfold Bindings.seen at hshown
  rw [List.length_map, List.length_map] at hshown
  -- the lines are those of the names and source forms, sorted
  have hlines (bs : List (Text × Value)) :
      ((bs.filter fun b => natives || ! b.2.isNative).mergeSort fun a b => Text.le a.1 b.1).flatMap
          (fun b => List.replicate (indent + 4) 0x20 ++ (b.1 ++ " -> " ++ b.2.sexp : Text) ++
            Text.ofString "\n") =
        ((Bindings.seen natives bs).mergeSort fun a b => Text.le a.1 b.1).flatMap
          fun p => List.replicate (indent + 4) 0x20 ++ (p.1 ++ " -> " ++ p.2 : Text) ++
            Text.ofString "\n" := by
    unfold Bindings.seen
    rw [← List.map_mergeSort (r := fun a b => Text.le a.1 b.1) fun _ _ _ _ => rfl, List.flatMap_map]
  unfold Frame.listing
  dsimp only
  rw [hlines, hlines, hseen, hname, hempty, hshown, hcount]

theorem isSome_of_rel {α : Type} {R : α → α → Prop} {a a' : Option α} (h : Option.Rel R a a') :
    a.isSome = a'.isSome := by
  cases h <;> rfl

end SmallLisp
