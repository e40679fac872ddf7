import SmallLisp.Proofs.Eval.Renumbering
import SmallLisp.Proofs.Scope.Chains
import SmallLisp.Proofs.Session.History

/-!
# The frames of a session form a forest

A name is looked up in a frame, then in the frame around it, and so on. That this comes to an end,
and where, is shown here for every state a session can be in:

* `Store.Forest`: every frame is a root or inside an earlier frame, and the closures that are bound
  know frames that exist;
* `Session.Life`: the states of a session, with the root frames it has had;
* `life_forest`: what holds of every state, now and later.

A session never comes back into the frames it had before it was cleared: an evaluation is compared
with itself, with the frames counted from the present root (`agree_renumbering`), and in that
comparison the frames below it stand for nothing.
-/

namespace SmallLisp

open EvalM Evaluator Session

/-! ## 1. The frames that closures know -/

mutual

/-- The frames in which the closures in a value were made. A closure can be in a list, under a
    quote, in a sequence and in the body of another closure. -/
def Value.homes : Value → List FrameId
  | .list items _ => homesAll items
  | .sequence body => homesAll body
  | .closure _ _ body env => env :: homesAll body
  | .quote v _ => v.homes
  | .unit | .number _ | .string _ | .bool _ | .atom _ _ | .native _ => []

/-- The frames in which the closures in some values were made. -/
def Value.homesAll : List Value → List FrameId
  | [] => []
  | v :: vs => v.homes ++ homesAll vs

end

namespace Value

variable {L : Loc → Loc → Prop} {F : FrameId → FrameId → Prop}

mutual

/-- The frames of a value that is like another one have counterparts. -/
theorem Like.homes : ∀ {v v' : Value}, Like L F v v' → ∀ i ∈ v.homes, ∃ i', F i i'
  | .list _ _, _, .list hitems _, i, hi => AllLike.homes hitems i hi
  | .sequence _, _, .sequence hbody, i, hi => AllLike.homes hbody i hi
  | .closure _ _ _ _, _, .closure _ _ hbody henv, i, hi => by
    rcases List.mem_cons.mp hi with rfl | hi
    · exact ⟨_, henv⟩
    · exact AllLike.homes hbody i hi
  | .quote _ _, _, .quote _ hv, i, hi => Like.homes hv i hi
  | .unit, _, .unit, _, hi => by cases hi
  | .number _, _, .number _, _, hi => by cases hi
  | .string _, _, .string _, _, hi => by cases hi
  | .bool _, _, .bool _, _, hi => by cases hi
  | .atom _ _, _, .atom _ _, _, hi => by cases hi
  | .native _, _, .native _, _, hi => by cases hi

theorem AllLike.homes :
    ∀ {vs vs' : List Value}, AllLike L F vs vs' → ∀ i ∈ homesAll vs, ∃ i', F i i'
  | [], _, .nil, _, hi => by cases hi
  | _ :: _, _, .cons hv hvs, i, hi => by
    rcases List.mem_append.mp hi with hi | hi
    · exact Like.homes hv i hi
    · exact AllLike.homes hvs i hi

end

end Value

theorem Bindings.Like.homes {L : Loc → Loc → Prop} {F : FrameId → FrameId → Prop}
    {bs bs' : List (Text × Value)} (h : Bindings.Like L F bs bs') {b : Text × Value} (hb : b ∈ bs) :
    ∀ i ∈ b.2.homes, ∃ i', F i i' := by
  induction h with
  | nil => cases hb
  | cons hlike _ ih =>
    rcases List.mem_cons.mp hb with rfl | hb
    · exact hlike.2.homes
    · exact ih hb

/-! ## 2. Forests -/

namespace Store

/-- Every frame is one of the given roots or inside an earlier frame, and the closures it binds were
    made in frames that exist. -/
structure Forest (roots : List FrameId) (st : Store) : Prop where
  parent : ∀ i f, st.frame? i = some f →
    (f.parent = none ∧ i ∈ roots) ∨ ∃ p < i, f.parent = some p
  homes : ∀ i f, st.frame? i = some f → ∀ b ∈ f.bindings, ∀ home ∈ b.2.homes,
    home < st.frames.size

namespace Forest

variable {roots : List FrameId} {st : Store} {i : FrameId}

theorem nested (h : st.Forest roots) : st.Nested roots := h.parent

/-- The chain of every frame is complete, and ends in a root. -/
theorem outwards (h : st.Forest roots) (hi : i < st.frames.size) :
    st.Outwards i (st.chain i) ∧ st.rootOf i ∈ roots := h.nested.outwards hi

end Forest

/-- In a later store that is a forest too, a frame has the same root. -/
theorem rootOf_later {roots roots' : List FrameId} {s t : Store} (hs : s.Forest roots)
    (ht : t.Forest roots') (hst : s.KeepsParents t) {i : FrameId} (hi : i < s.frames.size) :
    i < t.frames.size ∧ t.rootOf i = s.rootOf i := by
  obtain ⟨hit, hchain⟩ := hs.nested.chain_later ht.nested hst hi
  exact ⟨hit, by unfold rootOf; rw [hchain]⟩

namespace Renumbers

variable {base base' n : Nat} {st st' : Store}

/-- Every frame from a base on is inside the frame at the base. -/
theorem getLast?_chainUpTo (h : st.Renumbers base base' n st') {k : Nat} (hk : k < n) :
    ∀ {m : Nat}, k < m → (st.chainUpTo m (base + k)).getLast? = some base := by
  induction k using Nat.strongRecOn with
  | _ k ih =>
    intro m hm
    obtain ⟨m, rfl⟩ := Nat.exists_eq_succ_of_ne_zero (show m ≠ 0 by omega)
    obtain ⟨f, f', hf, -, hframe⟩ := h.frame k hk
    rcases hframe.parent with ⟨rfl, hnone, -⟩ | ⟨j, hj, hsome, -⟩
    · simp only [Store.chainUpTo, hf, hnone]
      rfl
    · simp only [Store.chainUpTo, hf, hsome]
      rw [List.getLast?_cons, ih j hj (by omega) (by omega), Option.getD_some]

theorem rootOf (h : st.Renumbers base base' n st') {i i' : FrameId}
    (hi : Renumbered base base' n i i') : i < st.frames.size ∧ st.rootOf i = base := by
  obtain ⟨k, hk, rfl, rfl⟩ := hi
  refine ⟨?_, ?_⟩
  · rw [h.size]
    exact Nat.add_lt_add_left hk base
  · unfold Store.rootOf Store.chain
    rw [h.getLast?_chainUpTo hk (by omega)]
    rfl

/-- The closures that are bound in a frame from the base on are inside the frame at the base. -/
theorem homes (h : st.Renumbers base base' n st') {i : FrameId} {f : Frame}
    (hf : st.frame? i = some f) (hi : base ≤ i) {b : Text × Value} (hb : b ∈ f.bindings)
    {home : FrameId} (hhome : home ∈ b.2.homes) :
    home < st.frames.size ∧ st.rootOf home = base := by
  obtain ⟨k, rfl⟩ := Nat.exists_eq_add_of_le hi
  have hk : k < n := by
    have hlt := lt_size_of_frame? hf
    rw [h.size] at hlt
    exact Nat.lt_of_add_lt_add_left hlt
  obtain ⟨g, g', hg, -, hframe⟩ := h.frame k hk
  obtain rfl := Option.some.inj (hf.symm.trans hg)
  obtain ⟨home', hrenumbered⟩ := hframe.bindings.homes hb home hhome
  exact h.rootOf hrenumbered

end Renumbers

/-- A forest with a tree more, from which no way leads into the others, is a forest. -/
theorem Forest.grow {roots : List FrameId} {past st : Store} (hold : past.Forest roots)
    (hkept : past.Extends st) (hmem : past.frames.size ∈ roots) {n : Nat}
    (hrecent : st.Renumbers past.frames.size past.frames.size n st) : st.Forest roots := by
  refine ⟨fun i f hf => ?_, fun i f hf b hb home hhome => ?_⟩
  · by_cases hi : i < past.frames.size
    · obtain ⟨g, hg⟩ := frame?_of_lt hi
      obtain rfl := Option.some.inj (hf.symm.trans (hkept i g hg))
      exact hold.parent i f hg
    · obtain ⟨k, rfl⟩ := Nat.exists_eq_add_of_le (Nat.le_of_not_lt hi)
      have hk := lt_size_of_frame? hf
      rw [hrecent.size] at hk
      obtain ⟨g, g', hg, -, hframe⟩ := hrecent.frame k (Nat.lt_of_add_lt_add_left hk)
      obtain rfl := Option.some.inj (hf.symm.trans hg)
      rcases hframe.parent with ⟨rfl, hnone, -⟩ | ⟨j, hj, hsome, -⟩
      · exact .inl ⟨hnone, hmem⟩
      · exact .inr ⟨past.frames.size + j, Nat.add_lt_add_left hj _, hsome⟩
  · by_cases hi : i < past.frames.size
    · obtain ⟨g, hg⟩ := frame?_of_lt hi
      obtain rfl := Option.some.inj (hf.symm.trans (hkept i g hg))
      have hpast := hold.homes i f hg b hb home hhome
      have hsize : past.frames.size ≤ st.frames.size := by
        rw [hrecent.size]
        exact Nat.le_add_right _ n
      exact Nat.lt_of_lt_of_le hpast hsize
    · exact (hrecent.homes hf (Nat.le_of_not_lt hi) hb hhome).1

theorem Forest.moreRoots {roots roots' : List FrameId} {st : Store} (h : st.Forest roots)
    (hroots : roots ⊆ roots') : st.Forest roots' :=
  ⟨h.nested.moreRoots hroots, h.homes⟩

end Store

/-! ## 3. Lives of sessions -/

/-- The states of a session that is set up, works and is cleared now and then. `roots` are the root
    frames it has had, the present one first, and `past` is the store as it was before that one. -/
inductive Session.Life : List FrameId → Store → Session → Prop where
  | start (version : Text) (limit : Nat) (trace verbose : Bool) (printer : Printer)
      (observers : List Observer) :
      Life [0] Store.empty { fresh version with limit, trace, verbose, printer, observers }
  | works {roots : List FrameId} {past : Store} {s t : Session} :
      Life roots past s → s.Works t → Life roots past t
  | clear {roots : List FrameId} {past : Store} {s : Session} :
      Life roots past s → Life (s.clear.root :: roots) s.store s.clear

/-- What holds of every state: the frames of before the present root are a forest and are as they
    were, and from the present root on no way leads below it. -/
structure Session.Grown (roots : List FrameId) (past : Store) (s : Session) : Prop where
  root : s.root = past.frames.size
  mem : s.root ∈ roots
  old : past.Forest roots
  kept : past.Extends s.store
  recent : ∃ n, 0 < n ∧ s.store.Renumbers s.root s.root n s.store

/-- A run from the root frame beside itself. -/
abbrev Session.selfRun (s : Session) : Correspondence :=
  (Correspondence.renumbering s.root s.root s.output s.output).same rfl

/-- A program compared with itself. -/
theorem agree_evalText {s : Session} {n : Nat} (hn : 0 < n)
    (h : s.store.Renumbers s.root s.root n s.store) (fuel : Nat) (src : Text) :
    s.selfRun.Agree s.selfRun.Value n (evalText fuel src s) (evalText fuel src s) := by
  have hs : s.selfRun.Sessions n s s :=
    ⟨rfl, ⟨rfl, h⟩, ⟨rfl, 0, hn, rfl, rfl⟩, rfl, rfl, rfl, rfl, rfl, rfl, rfl⟩
  cases hparse : parse src with
  | ok m =>
    rw [evalText_of_ok hparse]
    exact (s.selfRun.level_ofFuel rfl fuel).eval hs.root (Value.like_ofNode (fun _ => rfl) m) hs
  | error e =>
    rw [evalText_of_error hparse]
    exact .fault (Nat.le_refl n) (.refl (fun _ => rfl) _) hs

namespace Session.Grown

variable {roots : List FrameId} {past : Store} {s t : Session}

theorem start (version : Text) (limit : Nat) (trace verbose : Bool) (printer : Printer)
    (observers : List Observer) :
    Grown [0] Store.empty { fresh version with limit, trace, verbose, printer, observers } where
  root := rfl
  mem := List.mem_singleton.mpr rfl
  old := ⟨fun _ _ hf => (by cases hf), fun _ _ hf => (by cases hf)⟩
  kept _ _ hf := by cases hf
  recent := ⟨1, Nat.one_pos, Store.Renumbers.newPrelude Store.empty Store.empty version⟩

/-- The whole store is a forest. -/
theorem forest (h : Grown roots past s) : s.store.Forest roots := by
  obtain ⟨n, -, hrecent⟩ := h.recent
  rw [h.root] at hrecent
  exact h.old.grow h.kept (h.root ▸ h.mem) hrecent

theorem works (h : Grown roots past s) (hwork : s.Works t) : Grown roots past t where
  root := hwork.alike.root.trans h.root
  mem := hwork.alike.root ▸ h.mem
  old := h.old
  kept j f hf := by
    have hj : j ≠ s.root := by
      rw [h.root]
      exact Nat.ne_of_lt (Store.lt_size_of_frame? hf)
    obtain ⟨g, hg, -, -, hkeep⟩ := hwork.extendsBut j f (h.kept j f hf)
    rw [hg, hkeep hj]
  recent := by
    obtain ⟨n, hn, hrecent⟩ := h.recent
    rw [hwork.alike.root]
    cases hwork with
    | @run fuel src hfinished =>
      have hagree := agree_evalText hn hrecent fuel src
      unfold EvalM.after
      generalize evalText fuel src s = r at hagree hfinished ⊢
      cases hagree with
      | @ok u _ _ _ _ hle _ ht => exact ⟨u, Nat.lt_of_lt_of_le hn hle, ht.store.2⟩
      | @fault u _ _ _ _ hle _ ht => exact ⟨u, Nat.lt_of_lt_of_le hn hle, ht.store.2⟩
      | outOfFuel => exact False.elim hfinished
    | addGlobal name m =>
      have hroot : Renumbered s.root s.root n s.root s.root := ⟨0, hn, rfl, rfl⟩
      exact ⟨n, hn, hrecent.set hroot name (Value.like_ofNode (fun _ => rfl) m)⟩

theorem clear (h : Grown roots past s) : Grown (s.clear.root :: roots) s.store s.clear where
  root := rfl
  mem := List.mem_cons_self
  old := h.forest.moreRoots (List.subset_cons_self _ _)
  kept := Store.extends_alloc s.store _
  recent := ⟨1, Nat.one_pos, Store.Renumbers.newPrelude s.store s.store s.version⟩

end Session.Grown

theorem Session.Life.grown {roots : List FrameId} {past : Store} {s : Session}
    (h : Life roots past s) : Grown roots past s := by
  induction h with
  | start version limit trace verbose printer observers =>
    exact .start version limit trace verbose printer observers
  | works _ hwork ih => exact ih.works hwork
  | clear _ ih => exact ih.clear

/-- What a host does next belongs to the life of the session. -/
theorem Session.Life.steps {roots : List FrameId} {past : Store} {s t : Session}
    (h : Life roots past s) (hst : Relation.ReflTransGen Step s t) :
    ∃ roots' past', Life roots' past' t := by
  induction hst with
  | refl => exact ⟨roots, past, h⟩
  | tail _ hstep ih =>
    obtain ⟨roots', past', hlife⟩ := ih
    cases hstep with
    | works hwork => exact ⟨roots', past', hlife.works hwork⟩
    | clear => exact ⟨_, _, hlife.clear⟩

/-- The closures in the value of a program are inside the root it ran in, and stay there. -/
theorem homes_of_evalText {roots : List FrameId} {past : Store} {s t u : Session}
    (h : Life roots past s) {fuel : Nat} {src : Text} {v : Value}
    (hrun : evalText fuel src s = .ok v t) (htu : Relation.ReflTransGen Step t u) {home : FrameId}
    (hhome : home ∈ v.homes) :
    home < u.store.frames.size ∧ u.store.rootOf home = s.root := by
  obtain ⟨n, hn, hrecent⟩ := h.grown.recent
  have hfinished : Finished (evalText fuel src s) := by
    rw [hrun]
    trivial
  have hafter : (evalText fuel src).after s = t := by
    unfold EvalM.after
    rw [hrun]
  have hlife : Life roots past t := hafter ▸ h.works (.run hfinished)
  obtain ⟨roots', past', hlater⟩ := hlife.steps htu
  have hagree := agree_evalText hn hrecent fuel src
  rw [hrun] at hagree
  cases hagree with
  | ok _ hv ht =>
    obtain ⟨home', -, hrenumbered⟩ := Value.Like.homes hv home hhome
    obtain ⟨hsize, hroot⟩ := Store.Renumbers.rootOf ht.store.2 hrenumbered
    obtain ⟨hsize', hsame⟩ := Store.rootOf_later hlife.grown.forest hlater.grown.forest
      (keepsParents_of_steps htu) hsize
    exact ⟨hsize', hsame.trans hroot⟩

/-- **The frames of a session are a forest at all times.** In every state of a session:

    * the chain outwards from every frame is finite, and ends in one of the root frames;
    * whatever is done next, every frame stays inside the frame it was made in;
    * the frames of before the session was last cleared are as they were then;
    * every closure in what a frame binds was made in a frame that exists, which is inside the
      present root if the frame that binds it is from after the session was last cleared;
    * every closure in the value of a program was made in a frame that exists from then on and is
      inside the root the program ran in;
    * the search for a name ends, and looks at the root frame last. -/
theorem life_forest {roots : List FrameId} {past : Store} {s : Session} (h : Life roots past s) :
    (∀ i < s.store.frames.size,
      s.store.Outwards i (s.store.chain i) ∧ s.store.rootOf i ∈ roots) ∧
    (∀ t, Relation.ReflTransGen Step s t → ∀ i f, s.store.frame? i = some f →
      ∃ g, t.store.frame? i = some g ∧ g.parent = f.parent) ∧
    past.Extends s.store ∧
    (∀ i f, s.store.frame? i = some f → ∀ b ∈ f.bindings, ∀ home ∈ b.2.homes,
      home < s.store.frames.size ∧
        (past.frames.size ≤ i → s.store.rootOf home = s.root)) ∧
    (∀ fuel src v t, evalText fuel src s = .ok v t → ∀ u, Relation.ReflTransGen Step t u →
      ∀ home ∈ v.homes, home < u.store.frames.size ∧ u.store.rootOf home = s.root) ∧
    (∀ i < s.store.frames.size, ∀ name, s.store.Finds name i (s.store.get? i name) ∧
      s.store.get? i name = ((s.store.chain i).dropLast.findSome? (s.store.local? · name)).or
        (s.store.local? (s.store.rootOf i) name)) := by
  have hgrown := h.grown
  obtain ⟨n, -, hrecent⟩ := hgrown.recent
  refine ⟨fun i hi => hgrown.forest.outwards hi, fun t hst => keepsParents_of_steps hst,
    hgrown.kept, fun i f hf b hb home hhome => ⟨hgrown.forest.homes i f hf b hb home hhome, ?_⟩,
    fun fuel src v t hrun u htu home hhome => homes_of_evalText h hrun htu hhome,
    fun i hi name => ?_⟩
  · intro hi
    exact (hrecent.homes hf (hgrown.root ▸ hi) hb hhome).2
  · have hchain := (hgrown.forest.outwards hi).1
    exact ⟨hchain.finds name, Store.get?_eq_or_root hchain name⟩

/-- A session in which a closure was made in the frame of a call. -/
def keepingSession : Session :=
  (evalText 50 "(defun keep (x) (lambda () x)) (def kept (keep \"a\"))").after (fresh "0.0.0")

/-- After it was cleared, another closure was made and put into a list. -/
def renewedSession : Session :=
  (evalText 50 "(def again (list (lambda (x) (list x again))))").after keepingSession.clear

theorem life_forest_renewed :
    Life [keepingSession.clear.root, 0] keepingSession.store renewedSession ∧
    (∀ i < renewedSession.store.frames.size,
      renewedSession.store.Outwards i (renewedSession.store.chain i) ∧
        renewedSession.store.rootOf i ∈ [keepingSession.clear.root, 0]) ∧
    (∀ i f, renewedSession.store.frame? i = some f → ∀ b ∈ f.bindings, ∀ home ∈ b.2.homes,
      home < renewedSession.store.frames.size ∧ (keepingSession.store.frames.size ≤ i →
        renewedSession.store.rootOf home = renewedSession.root)) := by
  have hkeeping : Life [0] Store.empty keepingSession :=
    .works (.start "0.0.0" defaultLimit false false .plain []) (.run (Answer.finished_of_isOk
      (by decide +kernel)))
  have hlife : Life [keepingSession.clear.root, 0] keepingSession.store renewedSession :=
    .works hkeeping.clear (.run (Answer.finished_of_isOk (by decide +kernel)))
  exact ⟨hlife, (life_forest hlife).1, (life_forest hlife).2.2.2.1⟩

example : (renewedSession.store.frames.size, keepingSession.clear.root,
    keepingSession.store.chain 1, (renewedSession.find? "again").map Value.homes) =
      (3, 2, [1, 0], some [2]) := by decide +kernel

end SmallLisp
