import SmallLisp.Proofs.Scope.Chains

/-!
# Where a write is seen

Many chains lead through one frame, and a write to it can be seen from all frames they come from.
How far it is seen depends on what is bound on the way:

* `Store.Built`: the stores that new roots, new frames inside others and writes lead to;
* `Store.Unshadowed`: from one frame, a binding in another is hidden by none that is nearer;
* `write_seen_unless_shadowed`: a write is seen from exactly those frames, and changes nothing else.
-/

namespace SmallLisp

namespace Store

/-! ## 1. Stores that are built -/

/-- The stores made by new roots, new frames inside others, and writes. `roots` are the frames that
    were made as roots, the latest first. -/
inductive Built : List FrameId → Store → Prop where
  | empty : Built [] Store.empty
  | newRoot {roots : List FrameId} {s : Store} : Built roots s → (name : Text) →
      Built ((s.newRoot name).1 :: roots) (s.newRoot name).2
  | push {roots : List FrameId} {s : Store} {i : FrameId} : Built roots s → i < s.frames.size →
      (name : Text) → Built roots (s.push i name).2
  | set {roots : List FrameId} {s : Store} {i : FrameId} : Built roots s → i < s.frames.size →
      (name : Text) → (v : Value) → Built roots (s.set i name v)

section Steps

variable {roots : List FrameId} {s : Store}

/-- A new frame may be a root, or inside any frame there is. -/
theorem Nested.alloc (h : s.Nested roots) {f : Frame}
    (hf : (f.parent = none ∧ s.frames.size ∈ roots) ∨ ∃ p < s.frames.size, f.parent = some p) :
    (s.alloc f).2.Nested roots := by
  intro j g hg
  rw [frame?_alloc] at hg
  split at hg
  · rename_i hj
    obtain rfl := Option.some.inj hg
    rw [hj]
    exact hf
  · exact h j g hg

/-- A write moves no frame. -/
theorem Nested.set (h : s.Nested roots) (i : FrameId) (name : Text) (v : Value) :
    (s.set i name v).Nested roots := by
  intro j g hg
  rw [frame?_set] at hg
  split at hg
  · obtain ⟨f, hf, rfl⟩ := Option.map_eq_some_iff.mp hg
    exact h j f hf
  · exact h j g hg

theorem Built.nested (h : s.Built roots) : s.Nested roots := by
  induction h with
  | empty => exact fun _ _ hf => by cases hf
  | newRoot _ name ih =>
    exact (ih.moreRoots (List.subset_cons_self _ _)).alloc (.inl ⟨rfl, List.mem_cons_self⟩)
  | push _ hi name ih => exact ih.alloc (.inr ⟨_, hi, rfl⟩)
  | set _ _ name v ih => exact ih.set _ name v

end Steps

/-! ## 2. Searches after a write -/

/-- From frame `i`, a binding of the name in frame `j` is not shadowed: frame `j` is on the chain
    outwards from frame `i`, and no frame before it on this chain binds the name. -/
def Unshadowed (s : Store) (name : Text) (i j : FrameId) : Prop :=
  ∃ inner outer, s.Outwards i (inner ++ j :: outer) ∧ ∀ k ∈ inner, s.local? k name = none

section Writes

variable {roots : List FrameId} {s : Store} {i j : FrameId} {n name : Text}

theorem chain_set (h : s.Nested roots) (hi : i < s.frames.size) (j : FrameId) (name : Text)
    (v : Value) : (s.set j name v).chain i = s.chain i :=
  (h.chain_later (h.set j name v) (extendsBut_set s j name v).keepsParents hi).2

/-- A search that does not come to the binding that was written goes as before. -/
theorem findSome?_set {is : List FrameId} (h : ¬ (j ∈ is ∧ n = name)) (v : Value) :
    is.findSome? ((s.set j name v).local? · n) = is.findSome? (s.local? · n) := by
  induction is with
  | nil => rfl
  | cons k is ih =>
    have hk : ¬ (k = j ∧ n = name) := fun ⟨hkj, hn⟩ => h ⟨hkj ▸ List.mem_cons_self, hn⟩
    have his : ¬ (j ∈ is ∧ n = name) := fun ⟨hj, hn⟩ => h ⟨List.mem_cons_of_mem k hj, hn⟩
    rw [List.findSome?_cons, List.findSome?_cons, local?_set_of_ne s hk, ih his]

/-- What is written is found where it is not shadowed. -/
theorem get?_set_of_unshadowed (h : s.Nested roots) (hi : i < s.frames.size)
    (hj : j < s.frames.size) (hseen : s.Unshadowed name i j) (v : Value) :
    (s.set j name v).get? i name = some v := by
  obtain ⟨inner, outer, hout, hfree⟩ := hseen
  have hnot : j ∉ inner := fun hmem =>
    Nat.lt_irrefl j ((List.pairwise_append.mp (h.decreasing hout).2).2.2 j hmem j
      List.mem_cons_self)
  have hinner : inner.findSome? ((s.set j name v).local? · name) = none :=
    (findSome?_set (fun hmem => hnot hmem.1) v).trans (List.findSome?_eq_none_iff.mpr hfree)
  unfold get?
  rw [chain_set h hi, (h.outwards hi).1.unique hout, List.findSome?_append, hinner,
    Option.none_or, List.findSome?_cons, local?_set_self hj]

/-- What is found is as before where the write is shadowed, or not on the way. -/
theorem get?_set_of_shadowed (h : s.Nested roots) (hi : i < s.frames.size)
    (hhidden : ¬ s.Unshadowed name i j) (v : Value) :
    (s.set j name v).get? i name = s.get? i name := by
  unfold get?
  rw [chain_set h hi]
  by_cases hmem : j ∈ s.chain i
  · obtain ⟨inner, outer, hchain, hnot⟩ := List.eq_append_cons_of_mem hmem
    have hout := (h.outwards hi).1
    rw [hchain] at hout ⊢
    rw [List.findSome?_append, List.findSome?_append, findSome?_set (fun hmem => hnot hmem.1)]
    -- a nearer frame binds the name, and the search ends there in both stores
    cases hinner : inner.findSome? (s.local? · name) with
    | none => exact absurd ⟨inner, outer, hout, List.findSome?_eq_none_iff.mp hinner⟩ hhidden
    | some w => rfl
  · exact findSome?_set (fun hboth => hmem hboth.1) v

theorem get?_set_of_ne (h : s.Nested roots) (hi : i < s.frames.size) (hn : n ≠ name) (j : FrameId)
    (v : Value) : (s.set j name v).get? i n = s.get? i n := by
  unfold get?
  rw [chain_set h hi]
  exact findSome?_set (fun hboth => hn hboth.2) v

end Writes

end Store

/-! ## 3. The result -/

/-- **A write is seen exactly where it is not shadowed.** In every store that is built, a write to a
    frame has these effects:

    * the written name has the new value as seen from the frames from which the write is not
      shadowed, and all else is seen from every frame as before;
    * the frame itself binds the name to the value, and no other binding of any frame is changed;
    * every frame has the chain it had, which is complete, and so its depth and its root. -/
theorem write_seen_unless_shadowed {roots : List FrameId} {s : Store} (hs : s.Built roots)
    {j : FrameId} (hj : j < s.frames.size) (name : Text) (v : Value) :
    (∀ i < s.frames.size, ∀ n,
      (n = name ∧ s.Unshadowed name i j → (s.set j name v).get? i n = some v) ∧
      (¬ (n = name ∧ s.Unshadowed name i j) → (s.set j name v).get? i n = s.get? i n)) ∧
    (s.set j name v).local? j name = some v ∧
    (∀ i n, ¬ (i = j ∧ n = name) → (s.set j name v).local? i n = s.local? i n) ∧
    (∀ i < s.frames.size, s.Outwards i (s.chain i) ∧ (s.set j name v).chain i = s.chain i ∧
      (s.set j name v).depth i = s.depth i ∧ (s.set j name v).rootOf i = s.rootOf i) := by
  have hnested := hs.nested
  refine ⟨fun i hi n => ⟨?_, fun hhidden => ?_⟩, Store.local?_set_self hj name v,
    fun i n hother => Store.local?_set_of_ne s hother v, fun i hi => ?_⟩
  · rintro ⟨rfl, hseen⟩
    exact Store.get?_set_of_unshadowed hnested hi hj hseen v
  · by_cases hn : n = name
    · subst hn
      exact Store.get?_set_of_shadowed hnested hi (fun hseen => hhidden ⟨rfl, hseen⟩) v
    · exact Store.get?_set_of_ne hnested hi hn j v
  · have hchain := Store.chain_set hnested hi j name v
    refine ⟨(hnested.outwards hi).1, hchain, ?_, ?_⟩
    · unfold Store.depth
      rw [hchain]
    · unfold Store.rootOf
      rw [hchain]

/-- A root with a name bound, two frames inside it of which the first binds the name again, and a
    frame inside that one. -/
def cactusStore : Store :=
  let bound := (Store.empty.newRoot "global").2.set 0 "x" (.string "outer")
  let left := (bound.push 0 "left").2.set 1 "x" (.string "inner")
  ((left.push 0 "right").2.push 1 "leaf").2

theorem built_cactusStore : cactusStore.Built [0] :=
  .push (.push (.set (.push (.set (.newRoot .empty "global") (by decide) "x" _) (by decide) "left")
    (by decide) "x" _) (by decide) "right") (by decide) "leaf"

theorem write_seen_unless_shadowed_cactus :
    cactusStore.Built [0] ∧
    cactusStore.Unshadowed "x" 2 0 ∧ ¬ cactusStore.Unshadowed "x" 3 0 ∧
    (cactusStore.set 0 "x" (.string "new")).get? 2 "x" = some (.string "new") ∧
    (cactusStore.set 0 "x" (.string "new")).get? 3 "x" = cactusStore.get? 3 "x" ∧
    cactusStore.get? 3 "x" = some (.string "inner") := by
  have hwrite := (write_seen_unless_shadowed built_cactusStore (show 0 < 4 by decide) "x"
    (.string "new")).1
  have hright : cactusStore.Unshadowed "x" 2 0 :=
    ⟨[2], [], (built_cactusStore.nested.outwards (show 2 < 4 by decide)).1,
      List.forall_mem_singleton.mpr rfl⟩
  have hleaf : ¬ cactusStore.Unshadowed "x" 3 0 := by
    intro hseen
    have hnew := (hwrite 3 (by decide) "x").1 ⟨rfl, hseen⟩
    have hinner : (cactusStore.set 0 "x" (.string "new")).get? 3 "x" = some (.string "inner") := rfl
    rw [hnew] at hinner
    exact absurd (Value.string.inj (Option.some.inj hinner)) (by decide)
  exact ⟨built_cactusStore, hright, hleaf, (hwrite 2 (by decide) "x").1 ⟨rfl, hright⟩,
    (hwrite 3 (by decide) "x").2 fun h => hleaf h.2, rfl⟩

end SmallLisp
