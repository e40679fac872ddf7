import SmallLisp.Proofs.Eval.Places
import SmallLisp.Proofs.Eval.Stores

/-!
# The numbers of frames do not matter

A closure knows the frame it was made in by its number, and which number a new frame gets depends on
how many frames there were before. Here two runs are compared that count their frames from different
bases: `base` frames were there before the first one started, `base'` before the second, and the
`k`th frames made since stand for each other.

The frames below the bases stand for nothing. So a run that starts with no way into them never gets
there, and what they hold does not matter.

* `Store.Renumbers`: stores that are the same from their bases on, but for the numbers of frames;
* `Correspondence.renumbering`: runs in such stores.
-/

namespace SmallLisp

open EvalM Evaluator

/-! ## 1. Frames and stores -/

/-- Frames that have the same number below `n`, the one counted from `base` and the other from
    `base'`. -/
def Renumbered (base base' n : Nat) (i i' : FrameId) : Prop :=
  ∃ k < n, i = base + k ∧ i' = base' + k

theorem Renumbered.mono {base base' m n : Nat} (hmn : m ≤ n) {i i' : FrameId}
    (h : Renumbered base base' m i i') : Renumbered base base' n i i' := by
  obtain ⟨k, hk, hi, hi'⟩ := h
  exact ⟨k, by omega, hi, hi'⟩

theorem Renumbered.biUnique (base base' n : Nat) : Relator.BiUnique (Renumbered base base' n) := by
  constructor
  · rintro i i' j ⟨k, -, rfl, hk⟩ ⟨l, -, rfl, hl⟩
    rw [Nat.add_left_cancel (hk.symm.trans hl)]
  · rintro i j j' ⟨k, -, hk, rfl⟩ ⟨l, -, hl, rfl⟩
    rw [Nat.add_left_cancel (hk.symm.trans hl)]

/-- The `k`th frames after the bases correspond: the first ones are roots, and each later one is
    inside an earlier one. -/
structure Frame.Renumbers (base base' n k : Nat) (f f' : Frame) : Prop where
  name : f.name = f'.name
  parent : (k = 0 ∧ f.parent = none ∧ f'.parent = none) ∨
    ∃ j < k, f.parent = some (base + j) ∧ f'.parent = some (base' + j)
  bindings : Bindings.Like Eq (Renumbered base base' n) f.bindings f'.bindings

theorem Frame.Renumbers.mono {base base' m n k : Nat} (hmn : m ≤ n) {f f' : Frame}
    (h : Frame.Renumbers base base' m k f f') : Frame.Renumbers base base' n k f f' :=
  { h with bindings := h.bindings.mono fun _ _ hi => hi.mono hmn }

/-- After the bases there are `n` frames in each store, which correspond one by one. -/
structure Store.Renumbers (base base' n : Nat) (st st' : Store) : Prop where
  size : st.frames.size = base + n
  size' : st'.frames.size = base' + n
  frame : ∀ k < n, ∃ f f', st.frame? (base + k) = some f ∧ st'.frame? (base' + k) = some f' ∧
    Frame.Renumbers base base' n k f f'

namespace Store.Renumbers

variable {base base' n : Nat} {st st' : Store}

/-! ## 2. Likeness -/

/-- Along the numbers from the bases on the stores are alike. -/
theorem like (h : st.Renumbers base base' n st') : st.Like (Renumbered base base' n) st' := by
  rintro i i' ⟨k, hk, rfl, rfl⟩
  obtain ⟨f, f', hf, hf', hframe⟩ := h.frame k hk
  refine ⟨f, f', hf, hf', hframe.name, ?_, hframe.bindings⟩
  rcases hframe.parent with ⟨-, hnone, hnone'⟩ | ⟨j, hj, hsome, hsome'⟩
  · exact .inl ⟨hnone, hnone'⟩
  · exact .inr ⟨base + j, Nat.add_lt_add_left hj base, base' + j, Nat.add_lt_add_left hj base',
      ⟨j, Nat.lt_trans hj hk, rfl, rfl⟩, hsome, hsome'⟩

variable {i i' : FrameId}

/-! ## 3. Bindings and new frames -/

theorem set (h : st.Renumbers base base' n st') (hi : Renumbered base base' n i i') (name : Text)
    {v v' : Value} (hv : v.Like Eq (Renumbered base base' n) v') :
    (st.set i name v).Renumbers base base' n (st'.set i' name v') := by
  obtain ⟨j, hj, rfl, rfl⟩ := hi
  refine ⟨?_, ?_, fun k hk => ?_⟩
  · simp [Store.set, h.size]
  · simp [Store.set, h.size']
  · obtain ⟨f, f', hf, hf', hframe⟩ := h.frame k hk
    rw [frame?_set, frame?_set, hf, hf']
    by_cases hjk : j = k
    · subst hjk
      rw [if_pos rfl, if_pos rfl]
      exact ⟨_, _, rfl, rfl, hframe.name, hframe.parent, hframe.bindings.bind name hv⟩
    · have hne (b : Nat) : b + j ≠ b + k := by omega
      rw [if_neg (hne base), if_neg (hne base')]
      exact ⟨f, f', rfl, rfl, hframe⟩

theorem foldl_set (h : st.Renumbers base base' n st') (hi : Renumbered base base' n i i')
    {bs bs' : List (Text × Value)} (hbs : Bindings.Like Eq (Renumbered base base' n) bs bs') :
    (bs.foldl (fun st (n, v) => st.set i n v) st).Renumbers base base' n
      (bs'.foldl (fun st (n, v) => st.set i' n v) st') := by
  induction hbs generalizing st st' with
  | nil => exact h
  | @cons b b' bs bs' hb _ ih =>
    obtain ⟨name, v⟩ := b
    obtain ⟨name', v'⟩ := b'
    obtain ⟨rfl, hv⟩ := hb
    exact ih (h.set hi name hv)

theorem push (h : st.Renumbers base base' n st') (hi : Renumbered base base' n i i')
    (name : Text) : (st.push i name).2.Renumbers base base' (n + 1) (st'.push i' name).2 := by
  obtain ⟨j, hj, rfl, rfl⟩ := hi
  refine ⟨?_, ?_, fun k hk => ?_⟩
  · simp [Store.push, Store.alloc, h.size, Nat.add_assoc]
  · simp [Store.push, Store.alloc, h.size', Nat.add_assoc]
  · rw [frame?_push, frame?_push, h.size, h.size']
    by_cases hkn : k = n
    · subst hkn
      rw [if_pos rfl, if_pos rfl]
      exact ⟨_, _, rfl, rfl, rfl, .inr ⟨j, hj, rfl, rfl⟩, .nil⟩
    · have hne (b : Nat) : b + k ≠ b + n := by omega
      rw [if_neg (hne base), if_neg (hne base')]
      obtain ⟨f, f', hf, hf', hframe⟩ := h.frame k (by omega)
      exact ⟨f, f', hf, hf', hframe.mono (Nat.le_succ n)⟩

/-- A new frame in both stores is one more that corresponds. -/
theorem enter (h : st.Renumbers base base' n st') (hi : Renumbered base base' n i i') (name : Text)
    {bs bs' : List (Text × Value)} (hbs : Bindings.Like Eq (Renumbered base base' n) bs bs') :
    Renumbered base base' (n + 1) (st.enter i name bs).1 (st'.enter i' name bs').1 ∧
      (st.enter i name bs).2.Renumbers base base' (n + 1) (st'.enter i' name bs').2 := by
  have hnew : Renumbered base base' (n + 1) st.frames.size st'.frames.size :=
    ⟨n, Nat.lt_succ_self n, h.size, h.size'⟩
  exact ⟨hnew, (h.push hi name).foldl_set hnew (hbs.mono fun _ _ hj => hj.mono (Nat.le_succ n))⟩

/-- New root frames, whatever there was before them. -/
theorem newPrelude (st st' : Store) (version : Text) :
    (st.newPrelude version).2.Renumbers st.frames.size st'.frames.size 1
      (st'.newPrelude version).2 := by
  refine ⟨by simp [Store.newPrelude, Store.alloc], by simp [Store.newPrelude, Store.alloc], ?_⟩
  intro k hk
  obtain rfl : k = 0 := by omega
  refine ⟨_, _, Array.getElem?_push_size, Array.getElem?_push_size, rfl, .inl ⟨rfl, rfl, rfl⟩, ?_⟩
  -- no closure is in the prelude
  have hlike : ∀ b ∈ preludeBindings version,
      Value.Like Eq (Renumbered st.frames.size st'.frames.size 1) b.2 b.2 := by
    intro b hb
    simp only [preludeBindings, List.mem_append, List.mem_map, List.mem_singleton] at hb
    rcases hb with ⟨p, -, rfl⟩ | rfl
    · exact .native _
    · exact .string _
  exact List.forall₂_same.mpr fun b hb => ⟨rfl, hlike b hb⟩

end Store.Renumbers

/-! ## 4. Runs -/

/-- Runs that count their frames from different bases, in sessions that may have put out different
    texts before. The world is the number of frames made since. -/
def Correspondence.renumbering (base base' : Nat) (past past' : List Output) : Correspondence where
  World := Nat
  le := Nat.le
  barred _ := false
  loc := Eq
  frame := Renumbered base base'
  store := Store.Renumbers base base'
  report := Report.Since past past'
  printer p p' := p = p' ∧ p.IgnoresNumbers
  le_refl := Nat.le_refl
  le_trans := Nat.le_trans
  loc_refl _ := rfl
  locate ha hb := Loc.orElse_congr ha hb
  frame_mono hle hi := hi.mono hle
  report_add news h := h.add news
  get? name hst hi := hst.like.get? hi name
  isSome_local? name hst hi := isSome_of_rel (hst.like.local? hi name)
  set name _ hle htu hi hv _ :=
    ⟨_, hle, fun _ _ h => h, htu.set (hi.mono hle) name hv⟩
  enter name params hst hhome hvals :=
    ⟨_, Nat.le_succ _, hst.enter hhome name (Bindings.Like.zip hvals params)⟩
  dump {_ st st' p p' v v'} _ hp hst hv := by
    obtain ⟨rfl, hp⟩ := hp
    exact hv.dump (hp (Renumbered.biUnique base base' _) hst.like)
  probe _ hst hi := hst.like.depth hi
  surroundings _ hst hi := hst.like.listing hi _ false

/-- With no function barred, evaluation is as it is. -/
theorem barring_none (n : Nat) : barring (fun _ => false) n = ofFuel n := by
  have hsparing : sparing (fun _ => false) = fun _ act => act := by
    funext f act
    cases f <;> rfl
  have hplain : Wrapping.barring (fun _ => false) = .plain := by
    unfold Wrapping.barring
    rw [hsparing]
    rfl
  unfold barring
  rw [hplain, Wrapping.ofFuel_plain]

/-- Where nothing is barred, every evaluation keeps runs paired. -/
theorem Correspondence.level_ofFuel (c : Correspondence) (h : c.barred = fun _ => false) (n : Nat) :
    c.Level (ofFuel n) := by
  have hlevel := c.level n
  rw [h, barring_none] at hlevel
  exact hlevel

/-- **Evaluations that count their frames from different bases have answers that correspond.** -/
theorem agree_renumbering {base base' n : Nat} {past past' : List Output} {s s' : Session}
    (hs : (Correspondence.renumbering base base' past past').Sessions n s s') {i i' : FrameId}
    (hi : Renumbered base base' n i i') {form form' : Value}
    (hform : form.Like Eq (Renumbered base base' n) form') (fuel : Nat) :
    (Correspondence.renumbering base base' past past').Agree
      (Correspondence.renumbering base base' past past').Value n
      ((ofFuel fuel).eval i form s) ((ofFuel fuel).eval i' form' s') := by
  exact ((Correspondence.renumbering base base' past past').level_ofFuel rfl fuel).eval hi hform hs

end SmallLisp
