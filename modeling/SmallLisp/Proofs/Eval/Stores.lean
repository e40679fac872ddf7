import Mathlib.Logic.Relator
import SmallLisp.Proofs.Eval.Correspondence
import SmallLisp.Proofs.Scope
import SmallLisp.Proofs.Value.Bindings

/-!
# Stores that are alike

Two stores may hold the same things in frames with different numbers. A relation between frames says
which of them stand for each other; along it the stores are *alike* (`Store.Like`) if such frames
have the same name, are inside frames that stand for each other, and bind the same names to values
that are alike. Frames that stand for nothing may hold anything.

What is seen from frames that stand for each other is then alike. A binding made on both sides keeps
the stores alike if the frames correspond one to one, and so does a new frame that is made on both
sides.
-/

namespace SmallLisp

/-! ## 1. Frames and stores -/

/-- Frame `f` with number `i` is like frame `f'` with number `i'`. Both are roots, or both are
    inside earlier frames. -/
structure Frame.Like (F : FrameId → FrameId → Prop) (i i' : FrameId) (f f' : Frame) : Prop where
  name : f.name = f'.name
  parent : (f.parent = none ∧ f'.parent = none) ∨
    ∃ p < i, ∃ p' < i', F p p' ∧ f.parent = some p ∧ f'.parent = some p'
  bindings : Bindings.Like Eq F f.bindings f'.bindings

/-- Frames that stand for each other are alike. -/
def Store.Like (F : FrameId → FrameId → Prop) (st st' : Store) : Prop :=
  ∀ ⦃i i' : FrameId⦄, F i i' →
    ∃ f f', st.frame? i = some f ∧ st'.frame? i' = some f' ∧ Frame.Like F i i' f f'

/-- The printer shows a function by what it holds and what is in the frames around it, whatever
    their numbers are: the same wherever frames correspond one to one and are alike. -/
def Printer.IgnoresNumbers (p : Printer) : Prop :=
  ∀ {F : FrameId → FrameId → Prop} {st st' : Store}, Relator.BiUnique F → st.Like F st' →
    ∀ (level : Nat) {v v' : Value}, v.Like Eq F v' → p st level v = p st' level v'

theorem Printer.ignoresNumbers_plain : Printer.plain.IgnoresNumbers :=
  fun _ _ _ _ _ hv => hv.sexp

namespace Frame.Like

variable {F G : FrameId → FrameId → Prop} {i i' : FrameId} {f f' : Frame}

theorem mono (hFG : ∀ j j', F j j' → G j j') (h : Frame.Like F i i' f f') :
    Frame.Like G i i' f f' where
  name := h.name
  parent := h.parent.imp_right fun ⟨p, hp, p', hp', hF, hparents⟩ =>
    ⟨p, hp, p', hp', hFG p p' hF, hparents⟩
  bindings := h.bindings.mono hFG

theorem set (h : Frame.Like F i i' f f') (name : Text) {v v' : Value} (hv : v.Like Eq F v') :
    Frame.Like F i i' (f.set name v) (f'.set name v') :=
  ⟨h.name, h.parent, h.bindings.bind name hv⟩

theorem listing (h : Frame.Like F i i' f f') (indent : Nat) (natives : Bool) :
    f.listing indent natives = f'.listing indent natives :=
  Frame.listing_of_seen h.name h.bindings.length_eq (h.bindings.seen natives) indent

end Frame.Like

namespace Store.Like

variable {F G : FrameId → FrameId → Prop} {st st' : Store} {i i' : FrameId}

/-! ## 2. What is seen from a frame -/

/-- Chains correspond. A frame is inside an earlier one, so its own number is enough to follow its
    chain to the end. -/
theorem chainUpTo (h : st.Like F st') (hi : F i i') : ∀ {m m' : Nat}, i < m → i' < m' →
    List.Forall₂ F (st.chainUpTo m i) (st'.chainUpTo m' i') := by
  induction i using Nat.strongRecOn generalizing i' with
  | _ i ih =>
    intro m m' hm hm'
    obtain ⟨m, rfl⟩ := Nat.exists_eq_succ_of_ne_zero (Nat.ne_zero_of_lt hm)
    obtain ⟨m', rfl⟩ := Nat.exists_eq_succ_of_ne_zero (Nat.ne_zero_of_lt hm')
    obtain ⟨f, f', hf, hf', hframe⟩ := h hi
    rcases hframe.parent with ⟨hnone, hnone'⟩ | ⟨p, hp, p', hp', hF, hsome, hsome'⟩
    · simp only [Store.chainUpTo, hf, hf', hnone, hnone']
      exact .cons hi .nil
    · simp only [Store.chainUpTo, hf, hf', hsome, hsome']
      exact .cons hi (ih p hp hF (Nat.lt_of_lt_of_le hp (Nat.le_of_lt_succ hm))
        (Nat.lt_of_lt_of_le hp' (Nat.le_of_lt_succ hm')))

theorem chain (h : st.Like F st') (hi : F i i') :
    List.Forall₂ F (st.chain i) (st'.chain i') :=
  h.chainUpTo hi (Nat.lt_succ_self i) (Nat.lt_succ_self i')

theorem local? (h : st.Like F st') (hi : F i i') (name : Text) :
    Option.Rel (Value.Like Eq F) (st.local? i name) (st'.local? i' name) := by
  obtain ⟨f, f', hf, hf', hframe⟩ := h hi
  simp only [Store.local?, hf, hf', Option.bind_some]
  exact hframe.bindings.lookup name

theorem get? (h : st.Like F st') (hi : F i i') (name : Text) :
    Option.Rel (Value.Like Eq F) (st.get? i name) (st'.get? i' name) := by
  have hchain := h.chain hi
  unfold Store.get?
  generalize st.chain i = is at hchain ⊢
  generalize st'.chain i' = is' at hchain ⊢
  induction hchain with
  | nil => exact .none
  | @cons j j' js js' hj _ ih =>
    rw [List.findSome?_cons, List.findSome?_cons]
    have hlocal := h.local? hj name
    generalize st.local? j name = v? at hlocal ⊢
    generalize st'.local? j' name = v?' at hlocal ⊢
    cases hlocal with
    | none => exact ih
    | some hv => exact .some hv

theorem depth (h : st.Like F st') (hi : F i i') : st.depth i = st'.depth i' :=
  (h.chain hi).length_eq

theorem listing (h : st.Like F st') (hi : F i i') (label : Text) (natives : Bool) :
    st.listing i label natives = st'.listing i' label natives := by
  have hframes : ∀ {js js' : List FrameId}, List.Forall₂ F js js' →
      ∀ indent, st.listings natives indent js = st'.listings natives indent js' := by
    intro js js' hjs
    induction hjs with
    | nil => exact fun _ => rfl
    | cons hj _ ih =>
      intro indent
      obtain ⟨f, f', hf, hf', hframe⟩ := h hj
      simp only [Store.listings, hf, hf', Option.map_some, Option.getD_some,
        hframe.listing indent natives, ih]
  unfold Store.listing
  rw [hframes (h.chain hi)]

/-! ## 3. Bindings and new frames -/

theorem set (h : st.Like F st') (hF : Relator.BiUnique F) (hi : F i i') (name : Text)
    {v v' : Value} (hv : v.Like Eq F v') : (st.set i name v).Like F (st'.set i' name v') := by
  intro j j' hj
  obtain ⟨f, f', hf, hf', hframe⟩ := h hj
  rw [frame?_set, frame?_set, hf, hf']
  by_cases hij : i = j
  · subst hij
    obtain rfl := hF.2 hi hj
    rw [if_pos rfl, if_pos rfl]
    exact ⟨_, _, rfl, rfl, hframe.set name hv⟩
  · have hij' : i' ≠ j' := fun he => hij (hF.1 hi (he ▸ hj))
    rw [if_neg hij, if_neg hij']
    exact ⟨f, f', rfl, rfl, hframe⟩

theorem foldl_set (h : st.Like F st') (hF : Relator.BiUnique F) (hi : F i i')
    {bs bs' : List (Text × Value)} (hbs : Bindings.Like Eq F bs bs') :
    (bs.foldl (fun st (n, v) => st.set i n v) st).Like F
      (bs'.foldl (fun st (n, v) => st.set i' n v) st') := by
  induction hbs generalizing st st' with
  | nil => exact h
  | @cons b b' bs bs' hb _ ih =>
    obtain ⟨name, v⟩ := b
    obtain ⟨name', v'⟩ := b'
    obtain ⟨rfl, hv⟩ := hb
    exact ih (h.set hF hi name hv)

/-- New frames on both sides, which stand for each other from then on. -/
theorem push (h : st.Like F st') (hi : F i i') (name : Text)
    (hG : ∀ j j', G j j' ↔ F j j' ∨ j = st.frames.size ∧ j' = st'.frames.size) :
    (st.push i name).2.Like G (st'.push i' name).2 := by
  have hFG (j j' : FrameId) (hj : F j j') : G j j' := (hG j j').mpr (.inl hj)
  intro j j' hj
  rw [frame?_push, frame?_push]
  rcases (hG j j').mp hj with hold | ⟨rfl, rfl⟩
  · obtain ⟨f, f', hf, hf', hframe⟩ := h hold
    rw [if_neg (Nat.ne_of_lt (lt_size_of_frame? hf)), if_neg (Nat.ne_of_lt (lt_size_of_frame? hf'))]
    exact ⟨f, f', hf, hf', hframe.mono hFG⟩
  · obtain ⟨f, f', hf, hf', -⟩ := h hi
    rw [if_pos rfl, if_pos rfl]
    refine ⟨_, _, rfl, rfl, rfl, .inr ?_, .nil⟩
    exact ⟨i, lt_size_of_frame? hf, i', lt_size_of_frame? hf', hFG i i' hi, rfl, rfl⟩

/-- New frames on both sides, with bindings that are alike. -/
theorem enter (h : st.Like F st') (hi : F i i') (name : Text)
    (hG : ∀ j j', G j j' ↔ F j j' ∨ j = st.frames.size ∧ j' = st'.frames.size)
    (hunique : Relator.BiUnique G) {bs bs' : List (Text × Value)}
    (hbs : Bindings.Like Eq F bs bs') :
    (st.enter i name bs).2.Like G (st'.enter i' name bs').2 := by
  have hnew : G st.frames.size st'.frames.size := (hG _ _).mpr (.inr ⟨rfl, rfl⟩)
  exact (h.push hi name hG).foldl_set hunique hnew
    (hbs.mono fun j j' hj => (hG j j').mpr (.inl hj))

end Store.Like

end SmallLisp
