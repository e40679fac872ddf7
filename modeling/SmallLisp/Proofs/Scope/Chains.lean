import SmallLisp.Proofs.Scope

/-!
# Chains of frames

A name is looked up in a frame, then in the frame around it, and so on outwards.

* `Store.Outwards`: the complete chain of frames from a frame to a root;
* `Store.Finds`: a search along a chain, which ends;
* `Store.Nested`: every frame is a root or inside an earlier frame. Then the chain of every frame is
  complete, and no frame is twice on it.
-/

namespace SmallLisp.Store

/-! ## 1. Chains and searches -/

/-- The frames from frame `i` outwards, up to one that is inside no other. -/
inductive Outwards (st : Store) : FrameId → List FrameId → Prop where
  | root {i : FrameId} {f : Frame} : st.frame? i = some f → f.parent = none → Outwards st i [i]
  | inside {i p : FrameId} {f : Frame} {is : List FrameId} : st.frame? i = some f →
      f.parent = some p → Outwards st p is → Outwards st i (i :: is)

/-- A search for a name that goes outwards from frame `i` and ends. -/
inductive Finds (st : Store) (name : Text) : FrameId → Option Value → Prop where
  | here {i : FrameId} {v : Value} : st.local? i name = some v → Finds st name i (some v)
  | outside {i p : FrameId} {v? : Option Value} : st.local? i name = none →
      st.parent? i = some p → Finds st name p v? → Finds st name i v?
  | nowhere {i : FrameId} : st.local? i name = none → st.parent? i = none → Finds st name i none

theorem Outwards.unique {st : Store} {i : FrameId} {is is' : List FrameId}
    (h : st.Outwards i is) (h' : st.Outwards i is') : is = is' := by
  induction h generalizing is' with
  | root hf hnone =>
    cases h' with
    | root => rfl
    | inside hf' hsome _ =>
      obtain rfl := Option.some.inj (hf.symm.trans hf')
      rw [hnone] at hsome
      cases hsome
  | inside hf hsome _ ih =>
    cases h' with
    | root hf' hnone =>
      obtain rfl := Option.some.inj (hf.symm.trans hf')
      rw [hnone] at hsome
      cases hsome
    | inside hf' hsome' hrest =>
      obtain rfl := Option.some.inj (hf.symm.trans hf')
      obtain rfl := Option.some.inj (hsome.symm.trans hsome')
      rw [ih hrest]

/-- Chains stay as they are. -/
theorem Outwards.later {s t : Store} (hst : s.KeepsParents t) {i : FrameId} {is : List FrameId}
    (h : s.Outwards i is) : t.Outwards i is := by
  induction h with
  | root hf hnone =>
    obtain ⟨g, hg, hparent⟩ := hst _ _ hf
    exact .root hg (hparent.trans hnone)
  | inside hf hsome _ ih =>
    obtain ⟨g, hg, hparent⟩ := hst _ _ hf
    exact .inside hg (hparent.trans hsome) ih

/-- The first value found along a complete chain is what the search gives. -/
theorem Outwards.finds {st : Store} {i : FrameId} {is : List FrameId} (h : st.Outwards i is)
    (name : Text) : st.Finds name i (is.findSome? (st.local? · name)) := by
  induction h with
  | @root i f hf hnone =>
    rw [List.findSome?_cons]
    cases hlocal : st.local? i name with
    | some v => exact .here hlocal
    | none => exact .nowhere hlocal (by rw [parent?, hf, Option.bind_some, hnone])
  | @inside i p f is hf hsome _ ih =>
    rw [List.findSome?_cons]
    cases hlocal : st.local? i name with
    | some v => exact .here hlocal
    | none => exact .outside hlocal (by rw [parent?, hf, Option.bind_some, hsome]) ih

theorem Outwards.ne_nil {st : Store} {i : FrameId} {is : List FrameId} (h : st.Outwards i is) :
    is ≠ [] := by
  cases h with
  | root => exact List.cons_ne_nil _ _
  | inside => exact List.cons_ne_nil _ _

/-- The search comes to the outermost frame last. -/
theorem get?_eq_or_root {st : Store} {i : FrameId} (h : st.Outwards i (st.chain i)) (name : Text) :
    st.get? i name =
      ((st.chain i).dropLast.findSome? (st.local? · name)).or (st.local? (st.rootOf i) name) := by
  have hroot : st.rootOf i = (st.chain i).getLast h.ne_nil := by
    unfold rootOf
    rw [List.getLast?_eq_some_getLast h.ne_nil, Option.getD_some]
  have hlast : [st.rootOf i].findSome? (st.local? · name) = st.local? (st.rootOf i) name := by
    cases hlocal : st.local? (st.rootOf i) name <;> simp [hlocal]
  unfold get?
  rw [← hlast, ← List.findSome?_append, hroot, List.dropLast_concat_getLast]

/-! ## 2. Frames inside earlier frames -/

/-- Every frame is one of the given roots or inside an earlier frame. -/
def Nested (roots : List FrameId) (st : Store) : Prop :=
  ∀ i f, st.frame? i = some f → (f.parent = none ∧ i ∈ roots) ∨ ∃ p < i, f.parent = some p

namespace Nested

variable {roots : List FrameId} {st : Store} {i : FrameId}

theorem moreRoots {roots' : List FrameId} (h : st.Nested roots) (hroots : roots ⊆ roots') :
    st.Nested roots' :=
  fun i f hf => (h i f hf).imp_left fun ⟨hnone, hmem⟩ => ⟨hnone, hroots hmem⟩

theorem chainUpTo (h : st.Nested roots) : ∀ {m : Nat} {i : FrameId}, i < m → i < st.frames.size →
    st.Outwards i (st.chainUpTo m i) ∧ ∃ r ∈ roots, (st.chainUpTo m i).getLast? = some r := by
  intro m
  induction m with
  | zero => exact fun hi => absurd hi (Nat.not_lt_zero _)
  | succ m ih =>
    intro i hi hsize
    obtain ⟨f, hf⟩ := frame?_of_lt hsize
    rcases h i f hf with ⟨hnone, hmem⟩ | ⟨p, hp, hsome⟩
    · simp only [Store.chainUpTo, hf, hnone]
      exact ⟨.root hf hnone, i, hmem, rfl⟩
    · have hpm : p < m := Nat.lt_of_lt_of_le hp (Nat.le_of_lt_succ hi)
      obtain ⟨houter, r, hr, hlast⟩ := ih hpm (Nat.lt_trans hp hsize)
      simp only [Store.chainUpTo, hf, hsome]
      refine ⟨.inside hf hsome houter, r, hr, ?_⟩
      rw [List.getLast?_cons, hlast, Option.getD_some]

/-- The chain of every frame is complete, and ends in a root. -/
theorem outwards (h : st.Nested roots) (hi : i < st.frames.size) :
    st.Outwards i (st.chain i) ∧ st.rootOf i ∈ roots := by
  obtain ⟨hchain, r, hr, hlast⟩ := h.chainUpTo (Nat.lt_succ_self i) hi
  refine ⟨hchain, ?_⟩
  unfold rootOf chain
  rw [hlast]
  exact hr

/-- A chain leads to earlier and earlier frames. -/
theorem decreasing (h : st.Nested roots) {is : List FrameId} (his : st.Outwards i is) :
    (∀ k ∈ is, k ≤ i) ∧ is.Pairwise (· > ·) := by
  induction his with
  | root => exact ⟨by simp, List.pairwise_singleton _ _⟩
  | @inside i p f is hf hsome _ ih =>
    have hp : p < i := by
      rcases h i f hf with ⟨hnone, -⟩ | ⟨q, hq, hparent⟩
      · rw [hnone] at hsome
        cases hsome
      · rw [hparent] at hsome
        obtain rfl := Option.some.inj hsome
        exact hq
    have hlt (k : FrameId) (hk : k ∈ is) : k < i := Nat.lt_of_le_of_lt (ih.1 k hk) hp
    refine ⟨fun k hk => ?_, List.pairwise_cons.mpr ⟨hlt, ih.2⟩⟩
    rcases List.mem_cons.mp hk with rfl | hk
    · exact Nat.le_refl k
    · exact Nat.le_of_lt (hlt k hk)

/-- In a later store a frame has the same chain. -/
theorem chain_later {roots' : List FrameId} {t : Store} (h : st.Nested roots)
    (ht : t.Nested roots') (hst : st.KeepsParents t) (hi : i < st.frames.size) :
    i < t.frames.size ∧ t.chain i = st.chain i := by
  obtain ⟨f, hf⟩ := frame?_of_lt hi
  obtain ⟨g, hg, -⟩ := hst i f hf
  have hit : i < t.frames.size := lt_size_of_frame? hg
  exact ⟨hit, (ht.outwards hit).1.unique ((h.outwards hi).1.later hst)⟩

end Nested

end SmallLisp.Store
