import SmallLisp.Scope

/-!
# How a store grows

What a write and a new frame do to each frame of a store, and the orders this gives on stores:

* `Store.Extends s t`: every frame of `s` is in `t` as it was;
* `Store.ExtendsBut i s t`: every frame of `s` is in `t` with its name and its parent, and only
  frame `i` may have other bindings;
* `Store.KeepsParents s t`: every frame of `s` is in `t` with its parent.
-/

namespace SmallLisp

/-! ## 1. Single steps -/

namespace Frame

theorem lookup_bind_self (name : Text) (v : Value) (bs : List (Text × Value)) :
    (bind name v bs).lookup name = some v := by
  induction bs with
  | nil => exact List.lookup_cons_self
  | cons b bs ih =>
    unfold bind
    split
    · rename_i hb
      rw [hb]
      exact List.lookup_cons_self
    · rename_i hb
      have hne : (name == b.1) = false := beq_false_of_ne (Ne.symm hb)
      rw [List.lookup_cons, hne]
      exact ih

theorem lookup_bind_of_ne {n name : Text} (h : n ≠ name) (v : Value) (bs : List (Text × Value)) :
    (bind name v bs).lookup n = bs.lookup n := by
  induction bs with
  | nil => simp [bind, List.lookup_cons, beq_false_of_ne h]
  | cons b bs ih =>
    unfold bind
    split
    · rename_i hb
      have hne : (n == b.1) = false := beq_false_of_ne (by rw [hb]; exact h)
      rw [List.lookup_cons, List.lookup_cons, hne]
    · rw [List.lookup_cons, List.lookup_cons, ih]

end Frame

namespace Store

theorem frame?_set (s : Store) (i : FrameId) (name : Text) (v : Value) (j : FrameId) :
    (s.set i name v).frame? j =
      if i = j then (s.frame? j).map (·.set name v) else s.frame? j := by
  unfold set frame?
  exact Array.getElem?_modify

theorem frame?_set_of_ne (s : Store) {i j : FrameId} (h : i ≠ j) (name : Text) (v : Value) :
    (s.set i name v).frame? j = s.frame? j := by
  rw [frame?_set, if_neg h]

theorem frame?_alloc (s : Store) (f : Frame) (j : FrameId) :
    (s.alloc f).2.frame? j = if j = s.frames.size then some f else s.frame? j :=
  Array.getElem?_push

theorem frame?_push (s : Store) (i : FrameId) (name : Text) (j : FrameId) :
    (s.push i name).2.frame? j =
      if j = s.frames.size then some ⟨name, some i, []⟩ else s.frame? j :=
  s.frame?_alloc _ j

theorem lt_size_of_frame? {s : Store} {j : FrameId} {f : Frame} (h : s.frame? j = some f) :
    j < s.frames.size := by
  obtain ⟨hj, _⟩ := Array.getElem?_eq_some_iff.mp h
  exact hj

theorem frame?_of_lt {s : Store} {j : FrameId} (h : j < s.frames.size) :
    ∃ f, s.frame? j = some f := ⟨_, Array.getElem?_eq_getElem h⟩

/-- A write is in the frame it was made to. -/
theorem local?_set_self {s : Store} {i : FrameId} (h : i < s.frames.size) (name : Text)
    (v : Value) : (s.set i name v).local? i name = some v := by
  obtain ⟨f, hf⟩ := frame?_of_lt h
  unfold local?
  rw [frame?_set, if_pos rfl, hf]
  exact Frame.lookup_bind_self name v f.bindings

theorem local?_set_of_ne (s : Store) {i j : FrameId} {n name : Text} (h : ¬ (j = i ∧ n = name))
    (v : Value) : (s.set i name v).local? j n = s.local? j n := by
  unfold local?
  rw [frame?_set]
  split
  · rename_i hij
    have hn : n ≠ name := fun hn => h ⟨hij.symm, hn⟩
    cases s.frame? j with
    | none => rfl
    | some f => exact Frame.lookup_bind_of_ne hn v f.bindings
  · rfl

/-! ## 2. Every frame as it was -/

/-- Every frame of `s` is in `t` as it was. -/
def Extends (s t : Store) : Prop := ∀ j f, s.frame? j = some f → t.frame? j = some f

theorem Extends.refl (s : Store) : s.Extends s := fun _ _ h => h

/-- A new frame leaves the others as they were. -/
theorem extends_alloc (s : Store) (f : Frame) : s.Extends (s.alloc f).2 := by
  intro j g hg
  have hj : j ≠ s.frames.size := Nat.ne_of_lt (lt_size_of_frame? hg)
  rw [frame?_alloc, if_neg hj]
  exact hg

theorem extends_push (s : Store) (i : FrameId) (name : Text) : s.Extends (s.push i name).2 :=
  s.extends_alloc _

/-! ## 3. Every frame but one as it was -/

/-- Every frame of `s` is in `t` with its name and its parent, and with its bindings unless it is
    frame `i`. -/
def ExtendsBut (i : FrameId) (s t : Store) : Prop :=
  ∀ j f, s.frame? j = some f →
    ∃ g, t.frame? j = some g ∧ g.name = f.name ∧ g.parent = f.parent ∧ (j ≠ i → g = f)

theorem Extends.but {s t : Store} (h : s.Extends t) (i : FrameId) : s.ExtendsBut i t :=
  fun j f hf => ⟨f, h j f hf, rfl, rfl, fun _ => rfl⟩

theorem ExtendsBut.refl (i : FrameId) (s : Store) : s.ExtendsBut i s := (Extends.refl s).but i

theorem ExtendsBut.trans {i : FrameId} {s t u : Store} (h : s.ExtendsBut i t)
    (h' : t.ExtendsBut i u) : s.ExtendsBut i u := by
  intro j f hf
  obtain ⟨g, hg, hname, hparent, hkeep⟩ := h j f hf
  obtain ⟨g', hg', hname', hparent', hkeep'⟩ := h' j g hg
  refine ⟨g', hg', hname'.trans hname, hparent'.trans hparent, fun hj => ?_⟩
  rw [hkeep' hj, hkeep hj]

/-- A write touches no other frame, and of its own only the bindings. -/
theorem extendsBut_set (s : Store) (i : FrameId) (name : Text) (v : Value) :
    s.ExtendsBut i (s.set i name v) := by
  intro j f hf
  by_cases hj : j = i
  · subst hj
    refine ⟨f.set name v, ?_, rfl, rfl, fun h => absurd rfl h⟩
    rw [frame?_set, if_pos rfl, hf, Option.map_some]
  · refine ⟨f, ?_, rfl, rfl, fun _ => rfl⟩
    rw [frame?_set_of_ne s (Ne.symm hj)]
    exact hf

theorem extendsBut_foldl_set (i : FrameId) (bindings : List (Text × Value)) (s : Store) :
    s.ExtendsBut i (bindings.foldl (fun st (n, v) => st.set i n v) s) := by
  induction bindings generalizing s with
  | nil => exact ExtendsBut.refl i s
  | cons b bindings ih => exact (extendsBut_set s i b.1 b.2).trans (ih _)

/-- If only a frame that was not there may have been written, nothing was. -/
theorem ExtendsBut.extends_of_new {s t : Store} (h : s.ExtendsBut s.frames.size t) :
    s.Extends t := by
  intro j f hf
  have hj : j ≠ s.frames.size := Nat.ne_of_lt (lt_size_of_frame? hf)
  obtain ⟨g, hg, _, _, hkeep⟩ := h j f hf
  rw [hg, hkeep hj]

/-! ## 4. Every frame inside the same one -/

/-- Every frame of `s` is in `t`, inside the same frame. -/
def KeepsParents (s t : Store) : Prop :=
  ∀ i f, s.frame? i = some f → ∃ g, t.frame? i = some g ∧ g.parent = f.parent

theorem KeepsParents.refl (s : Store) : s.KeepsParents s := fun _ f hf => ⟨f, hf, rfl⟩

theorem KeepsParents.trans {s t u : Store} (h : s.KeepsParents t) (h' : t.KeepsParents u) :
    s.KeepsParents u := by
  intro i f hf
  obtain ⟨g, hg, hparent⟩ := h i f hf
  obtain ⟨g', hg', hparent'⟩ := h' i g hg
  exact ⟨g', hg', hparent'.trans hparent⟩

theorem ExtendsBut.keepsParents {i : FrameId} {s t : Store} (h : s.ExtendsBut i t) :
    s.KeepsParents t := by
  intro j f hf
  obtain ⟨g, hg, -, hparent, -⟩ := h j f hf
  exact ⟨g, hg, hparent⟩

end Store

end SmallLisp
