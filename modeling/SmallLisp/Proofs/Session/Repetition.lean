import SmallLisp.Proofs.Eval.Observers
import SmallLisp.Proofs.Session.Clearing
import SmallLisp.Proofs.Session.Forest

/-!
# A call that is made again

The application of a closure makes new frames and writes to no other, so a second application of it
finds everything as the first one found it. The frames that the first one has left are there too,
but nothing leads to them. So the two applications go the same way, one frame for one frame; only
the numbers of the new frames differ (`closures_keep_no_state`).

* `Shifted`: the frames that were there before stand for themselves, and the new ones for each other
  in the order in which they were made;
* `Correspondence.shifting`: runs of which the second starts with more frames than the first;
* `Session.Reached`: the states that a session gets into, in which its frames form a forest
  (`Session.Reached.sound`).
-/

namespace SmallLisp

open EvalM Evaluator Session

/-! ## 1. Frames and stores -/

/-- Below `base` a frame stands for itself. The first `n` frames from `base` on stand for those from
    `base'` on. -/
def Shifted (base base' n : Nat) (i i' : FrameId) : Prop :=
  i < base ∧ i' = i ∨ Renumbered base base' n i i'

namespace Shifted

variable {base base' n : Nat} {i i' : FrameId}

theorem mono {m : Nat} (hmn : m ≤ n) (h : Shifted base base' m i i') : Shifted base base' n i i' :=
  h.imp_right fun h => h.mono hmn

theorem zero_iff : Shifted base base' 0 i i' ↔ i < base ∧ i' = i := by
  refine ⟨fun h => h.resolve_right ?_, .inl⟩
  rintro ⟨k, hk, -⟩
  exact Nat.not_lt_zero k hk

theorem succ_iff : Shifted base base' (n + 1) i i' ↔
    Shifted base base' n i i' ∨ i = base + n ∧ i' = base' + n := by
  constructor
  · rintro (hold | ⟨k, hk, hi, hi'⟩)
    · exact .inl (.inl hold)
    · rcases Nat.lt_succ_iff_lt_or_eq.mp hk with hk | rfl
      · exact .inl (.inr ⟨k, hk, hi, hi'⟩)
      · exact .inr ⟨hi, hi'⟩
  · rintro (h | ⟨hi, hi'⟩)
    · exact h.mono (Nat.le_succ n)
    · exact .inr ⟨n, Nat.lt_succ_self n, hi, hi'⟩

theorem eq_iff (hbase : base ≤ base') {j j' : FrameId} (hi : Shifted base base' n i i')
    (hj : Shifted base base' n j j') : i = j ↔ i' = j' := by
  rcases hi with ⟨hi, rfl⟩ | ⟨k, -, rfl, rfl⟩ <;> rcases hj with ⟨hj, rfl⟩ | ⟨l, -, rfl, rfl⟩
  · exact Iff.rfl
  · exact iff_of_false (Nat.ne_of_lt (Nat.lt_add_right l hi))
      (Nat.ne_of_lt (Nat.lt_add_right l (Nat.lt_of_lt_of_le hi hbase)))
  · exact iff_of_false (Nat.ne_of_gt (Nat.lt_add_right k hj))
      (Nat.ne_of_gt (Nat.lt_add_right k (Nat.lt_of_lt_of_le hj hbase)))
  · rw [Nat.add_left_cancel_iff, Nat.add_left_cancel_iff]

theorem biUnique (hbase : base ≤ base') (n : Nat) : Relator.BiUnique (Shifted base base' n) :=
  ⟨fun _ _ _ hi hj => (eq_iff hbase hi hj).mpr rfl, fun _ _ _ hi hj => (eq_iff hbase hi hj).mp rfl⟩

end Shifted

/-- The first store has `n` frames from `base` on and the second has as many from `base'` on, and
    along these and the frames below `base` the two are alike. -/
structure Store.Shifts (base base' n : Nat) (st st' : Store) : Prop where
  size : st.frames.size = base + n
  size' : st'.frames.size = base' + n
  like : st.Like (Shifted base base' n) st'

namespace Store

@[simp] theorem size_set (st : Store) (i : FrameId) (name : Text) (v : Value) :
    (st.set i name v).frames.size = st.frames.size := Array.size_modify

theorem size_foldl_set (frame : FrameId) (bs : List (Text × Value)) (st : Store) :
    (bs.foldl (fun st b => st.set frame b.1 b.2) st).frames.size = st.frames.size := by
  induction bs generalizing st with
  | nil => rfl
  | cons b bs ih => rw [List.foldl_cons, ih, size_set]

theorem size_enter (st : Store) (i : FrameId) (name : Text) (bs : List (Text × Value)) :
    (st.enter i name bs).2.frames.size = st.frames.size + 1 :=
  (size_foldl_set _ bs _).trans (Array.size_push _)

theorem Extends.size_le {st st' : Store} (h : st.Extends st') :
    st.frames.size ≤ st'.frames.size := by
  refine Nat.le_of_not_lt fun hlt => ?_
  obtain ⟨f, hf⟩ := frame?_of_lt hlt
  exact Nat.lt_irrefl _ (lt_size_of_frame? (h _ f hf))

namespace Shifts

variable {base base' n : Nat} {st st' : Store} {i i' : FrameId}

theorem set (h : st.Shifts base base' n st') (hbase : base ≤ base') (hi : Shifted base base' n i i')
    (name : Text) {v v' : Value} (hv : v.Like Eq (Shifted base base' n) v') :
    (st.set i name v).Shifts base base' n (st'.set i' name v') where
  size := (size_set ..).trans h.size
  size' := (size_set ..).trans h.size'
  like := h.like.set (Shifted.biUnique hbase n) hi name hv

theorem enter (h : st.Shifts base base' n st') (hbase : base ≤ base')
    (hi : Shifted base base' n i i') (name : Text) {bs bs' : List (Text × Value)}
    (hbs : Bindings.Like Eq (Shifted base base' n) bs bs') :
    (st.enter i name bs).2.Shifts base base' (n + 1) (st'.enter i' name bs').2 where
  size := by rw [size_enter, h.size, Nat.add_assoc]
  size' := by rw [size_enter, h.size', Nat.add_assoc]
  like := by
    refine h.like.enter hi name (fun j j' => ?_) (Shifted.biUnique hbase (n + 1)) hbs
    rw [h.size, h.size']
    exact Shifted.succ_iff

end Shifts

end Store

/-! ## 2. Runs -/

/-- Runs of which the second starts with more frames than the first, in sessions that may have put
    out different texts before. The world is the number of frames made since. -/
def Correspondence.shifting (base base' : Nat) (hbase : base ≤ base') (past past' : List Output) :
    Correspondence where
  World := Nat
  le := Nat.le
  barred _ := false
  loc := Eq
  frame := Shifted base base'
  store := Store.Shifts base base'
  report := Report.Since past past'
  printer p p' := p = p' ∧ p.IgnoresNumbers
  le_refl := Nat.le_refl
  le_trans := Nat.le_trans
  loc_refl _ := rfl
  locate ha hb := Loc.orElse_congr ha hb
  frame_mono hle hi := hi.mono hle
  report_add news h := h.add news
  get? name hst hi := hst.like.get? hi name
  isSome_local? name hst hi := isSome_of_rel (hst.like.local? hi name)
  set name _ hle htu hi hv _ := ⟨_, hle, fun _ _ h => h, htu.set hbase (hi.mono hle) name hv⟩
  enter {n st st' home home' vals vals'} name params hst hhome hvals := by
    have hnew : Shifted base base' (n + 1) st.frames.size st'.frames.size :=
      Shifted.succ_iff.mpr (.inr ⟨hst.size, hst.size'⟩)
    exact ⟨n + 1, Nat.le_succ n, hnew,
      hst.enter hbase hhome name (Bindings.Like.zip hvals params)⟩
  dump {n st st' p p' v v'} _ hp hst hv := by
    obtain ⟨rfl, hp⟩ := hp
    exact hv.dump (hp (Shifted.biUnique hbase n) hst.like)
  probe _ hst hi := hst.like.depth hi
  surroundings _ hst hi := hst.like.listing hi _ false

/-! ## 3. The state before the second call -/

namespace Value

variable {F : FrameId → FrameId → Prop}

mutual

/-- A value is like itself along frames that stand for themselves. -/
theorem like_of_homes : ∀ {v : Value}, (∀ i ∈ v.homes, F i i) → v.Like Eq F v
  | .list _ _, h => .list (allLike_of_homes h) rfl
  | .sequence _, h => .sequence (allLike_of_homes h)
  | .closure name params _ _, h =>
    .closure name params (allLike_of_homes fun i hi => h i (List.mem_cons_of_mem _ hi))
      (h _ List.mem_cons_self)
  | .quote _ applied, h => .quote applied (like_of_homes h)
  | .unit, _ => .unit
  | .number x, _ => .number x
  | .string t, _ => .string t
  | .bool b, _ => .bool b
  | .atom name _, _ => .atom name rfl
  | .native f, _ => .native f

theorem allLike_of_homes : ∀ {vs : List Value}, (∀ i ∈ homesAll vs, F i i) → AllLike Eq F vs vs
  | [], _ => .nil
  | _ :: _, h => .cons (like_of_homes fun i hi => h i (List.mem_append_left _ hi))
      (allLike_of_homes fun i hi => h i (List.mem_append_right _ hi))

end

end Value

/-- A forest is like a store that extends it, along all of its frames. -/
theorem Store.Forest.shifts {roots : List FrameId} {st st' : Store} (h : st.Forest roots)
    (hext : st.Extends st') : st.Shifts st.frames.size st'.frames.size 0 st' where
  size := rfl
  size' := rfl
  like := by
    intro j i hi
    obtain ⟨hsize, rfl⟩ := Shifted.zero_iff.mp hi
    obtain ⟨f, hf⟩ := frame?_of_lt hsize
    refine ⟨f, f, hf, hext i f hf, rfl, ?_, ?_⟩
    · rcases h.parent i f hf with ⟨hnone, -⟩ | ⟨p, hp, hsome⟩
      · exact .inl ⟨hnone, hnone⟩
      · exact .inr ⟨p, hp, p, hp, .inl ⟨Nat.lt_trans hp hsize, rfl⟩, hsome, hsome⟩
    · exact List.forall₂_same.mpr fun b hb =>
        ⟨rfl, Value.like_of_homes fun home hhome => .inl ⟨h.homes i f hf b hb home hhome, rfl⟩⟩

/-- Along all frames that are there, a store that is like itself is a forest. -/
theorem Store.Shifts.forest {base n : Nat} {st : Store} (h : st.Shifts base base n st) :
    ∃ roots, st.Forest roots := by
  have hself {i : FrameId} (hi : i < st.frames.size) : Shifted base base n i i := by
    rw [h.size] at hi
    by_cases hbase : i < base
    · exact .inl ⟨hbase, rfl⟩
    · obtain ⟨k, rfl⟩ := Nat.exists_eq_add_of_le (Nat.le_of_not_lt hbase)
      exact .inr ⟨k, Nat.lt_of_add_lt_add_left hi, rfl, rfl⟩
  have hthere {i i' : FrameId} (hi : Shifted base base n i i') : i < st.frames.size := by
    obtain ⟨f, -, hf, -⟩ := h.like hi
    exact lt_size_of_frame? hf
  refine ⟨List.range st.frames.size, fun i f hf => ?_, fun i f hf b hb home hhome => ?_⟩ <;>
    obtain ⟨g, g', hg, -, hframe⟩ := h.like (hself (lt_size_of_frame? hf)) <;>
    obtain rfl := Option.some.inj (hf.symm.trans hg)
  · rcases hframe.parent with ⟨hnone, -⟩ | ⟨p, hp, -, -, -, hsome, -⟩
    · exact .inl ⟨hnone, List.mem_range.mpr (lt_size_of_frame? hf)⟩
    · exact .inr ⟨p, hp, hsome⟩
  · obtain ⟨home', hhome'⟩ := hframe.bindings.homes hb home hhome
    exact hthere hhome'

/-- The frames of the session form a forest, and its root is one of them. -/
structure Session.Sound (s : Session) : Prop where
  forest : ∃ roots, s.store.Forest roots
  root : s.root < s.store.frames.size

/-- The session knows the frames that the closures in these values were made in. -/
def Session.Knows (s : Session) (vs : List Value) : Prop :=
  ∀ home ∈ Value.homesAll vs, home < s.store.frames.size

/-- Runs that start in one state of a session, and runs that start in a later one. -/
abbrev Session.again (s t : Session) (h : s.store.Extends t.store) : Correspondence :=
  .shifting s.store.frames.size t.store.frames.size h.size_le s.output t.output

/-- The states correspond if the observers have noted nothing in between, and the numbers of frames
    are not seen in dumps. -/
theorem Session.Sound.sessions {s t : Session} (h : s.Sound) (hprinter : s.printer.IgnoresNumbers)
    (halike : s.Alike t) (hext : s.store.Extends t.store) (hstarted : s.started = t.started)
    (hfinished : s.finished = t.finished) (hjournal : s.journal = t.journal) :
    (s.again t hext).Sessions (0 : Nat) s t where
  version := halike.version.symm
  store := by
    obtain ⟨roots, hforest⟩ := h.forest
    exact hforest.shifts hext
  root := .inl ⟨h.root, halike.root⟩
  limit := halike.limit.symm
  trace := halike.trace.symm
  verbose := halike.verbose.symm
  printer := ⟨halike.printer.symm, hprinter⟩
  depth := halike.depth.symm
  observers := halike.observers.symm
  report := ⟨⟨[], rfl, rfl⟩, hstarted, hfinished, hjournal⟩

theorem Session.Knows.allLike {s : Session} {vs : List Value} (h : s.Knows vs) (base' : Nat) :
    Value.AllLike Eq (Shifted s.store.frames.size base' 0) vs vs :=
  Value.allLike_of_homes fun home hhome => .inl ⟨h home hhome, rfl⟩

/-! ## 4. Answers that repeat -/

/-- Both answers are values that are printed alike and are the same but for frames that stand for
    each other, or both are the same fault. -/
inductive Answer.Repeats (F : FrameId → FrameId → Prop) : Answer Value → Answer Value → Prop where
  | value {v v' : Value} {s s' : Session} : v.sexp = v'.sexp → v.Like Eq F v' →
      Repeats F (.ok v s) (.ok v' s')
  | fault (f : Fault) (s s' : Session) : Repeats F (.error (.fault f) s) (.error (.fault f) s')

theorem Answer.repeats_unwatched_iff {F : FrameId → FrameId → Prop} {r r' : Answer Value} :
    Repeats F r.unwatched r'.unwatched ↔ Repeats F r r' := by
  constructor
  · rcases r with ⟨v, t⟩ | ⟨e, t⟩ <;> rcases r' with ⟨v', t'⟩ | ⟨e', t'⟩ <;> intro h
    · cases h with
      | value hsexp hlike => exact .value hsexp hlike
    · cases h
    · cases h
    · cases h
      exact .fault _ t t'
  · intro h
    cases h with
    | value hsexp hlike => exact .value hsexp hlike
    | fault f t t' => exact .fault f _ _

theorem Answer.finished_unwatched_iff {α : Type} {r : Answer α} :
    Finished r.unwatched ↔ Finished r := by
  rcases r with ⟨a, t⟩ | ⟨f | _, t⟩ <;> exact Iff.rfl

/-- Runs that were paired from the start put out the same and have answers that repeat. -/
theorem repeats_of_agree {base base' : Nat} {hbase : base ≤ base'} {s t s' t' : Session}
    {m m' : EvalM Value}
    (h : (Correspondence.shifting base base' hbase s.output t.output).Agree
      (Correspondence.shifting base base' hbase s.output t.output).Value (0 : Nat) (m s') (m' t'))
    (hend : Finished (m s')) :
    (m'.after t').outputSince t = (m.after s').outputSince s ∧
      Answer.Repeats (Shifted base base' ((m.after s').store.frames.size - base)) (m s')
        (m' t') := by
  -- the world is the number of frames made
  have hmade {n : Nat} {st st' : Store} (hst : st.Shifts base base' n st') :
      st.frames.size - base = n := by
    rw [hst.size, Nat.add_sub_cancel_left]
  unfold EvalM.after
  generalize m s' = r at h hend ⊢
  generalize m' t' = r' at h ⊢
  cases h with
  | ok _ hv hs =>
    refine ⟨(Report.Since.outputSince hs.report).symm, .value hv.sexp ?_⟩
    dsimp only
    rw [hmade hs.store]
    exact hv
  | fault _ hf hs =>
    rw [Fault.Like.eq hf]
    exact ⟨(Report.Since.outputSince hs.report).symm, .fault _ _ _⟩
  | outOfFuel => exact False.elim hend

/-! ## 5. The states that are reached -/

namespace Session.Sound

variable {s t : Session}

/-- A run beside itself. -/
abbrev itself (s : Session) : Correspondence := (s.again s (.refl _)).same rfl

/-- An action that is compared with itself leaves the session sound. -/
theorem after {m : EvalM Value} (h : s.Sound)
    (hm : (itself s).Paired (0 : Nat) (itself s).Value m m) (hend : Finished (m s)) :
    (m.after s).Sound := by
  have hs : (itself s).Sessions (0 : Nat) s s := by
    obtain ⟨roots, hforest⟩ := h.forest
    exact ⟨rfl, ⟨rfl, hforest.shifts (.refl s.store)⟩, ⟨rfl, .inl ⟨h.root, rfl⟩⟩, rfl, rfl, rfl,
      rfl, rfl, rfl, rfl⟩
  have hagree := hm hs
  have hsound {n : Nat} {u : Session} (hu : (itself s).Sessions n u u) : u.Sound := by
    obtain ⟨f, -, hf, -⟩ := hu.store.2.like hu.root.2
    exact ⟨hu.store.2.forest, Store.lt_size_of_frame? hf⟩
  unfold EvalM.after
  generalize m s = r at hagree hend ⊢
  cases hagree with
  | ok _ _ hu => exact hsound hu
  | fault _ _ hu => exact hsound hu
  | outOfFuel => exact False.elim hend

theorem apply (h : s.Sound) {env : FrameId} (henv : env < s.store.frames.size) {f : Value}
    {vals : List Value} (hknown : s.Knows (f :: vals)) {fuel : Nat}
    (hend : Finished ((ofFuel fuel).apply env f vals s)) :
    (((ofFuel fuel).apply env f vals).after s).Sound := by
  obtain _ | ⟨hf, hvals⟩ := hknown.allLike s.store.frames.size
  exact h.after (((itself s).level_ofFuel rfl fuel).apply ⟨rfl, .inl ⟨henv, rfl⟩⟩ hf.self
    (Value.AllLike.self hvals)) hend

theorem evalText (h : s.Sound) {fuel : Nat} {src : Text}
    (hend : Finished (Session.evalText fuel src s)) :
    ((Session.evalText fuel src).after s).Sound := by
  refine h.after ?_ hend
  unfold Session.evalText
  split
  · rename_i n _
    intro u u' hu
    exact ((itself s).level_ofFuel rfl fuel).eval hu.root
      (Value.like_ofNode (fun _ => rfl) n) hu
  · exact .fail (.refl (fun _ => rfl) _)

theorem addGlobal (h : s.Sound) (name : Text) (n : Node) :
    (s.addGlobal name (.ofNode n)).Sound := by
  obtain ⟨roots, hforest⟩ := h.forest
  have hshifts := (hforest.shifts (.refl s.store)).set (Nat.le_refl _) (.inl ⟨h.root, rfl⟩) name
    (Value.like_ofNode (fun _ => rfl) n)
  exact ⟨hshifts.forest, Nat.lt_of_lt_of_eq h.root (Store.size_set ..).symm⟩

theorem clear (h : s.Sound) : s.clear.Sound := by
  obtain ⟨roots, hforest⟩ := h.forest
  refine ⟨⟨s.store.frames.size :: roots, ?_⟩, ?_⟩
  · exact (hforest.moreRoots (List.subset_cons_self _ _)).grow (Store.extends_alloc s.store _)
      List.mem_cons_self (Store.Renumbers.newPrelude s.store s.store s.version)
  · exact Nat.lt_of_lt_of_eq (Nat.lt_succ_self _) (Array.size_push _).symm

theorem step (h : s.Sound) (hstep : s.Step t) : t.Sound := by
  cases hstep with
  | clear => exact h.clear
  | works hwork =>
    cases hwork with
    | run hend => exact h.evalText hend
    | addGlobal name n => exact h.addGlobal name n

end Session.Sound

/-- The states of a session that is set up and used by a host, which may also apply functions
    itself. -/
inductive Session.Reached : Session → Prop where
  | start (version : Text) (limit : Nat) (trace verbose : Bool) (printer : Printer)
      (observers : List Observer) :
      Reached { fresh version with limit, trace, verbose, printer, observers }
  | step {s t : Session} : Reached s → s.Step t → Reached t
  | apply {s : Session} {env : FrameId} {f : Value} {vals : List Value} {fuel : Nat} : Reached s →
      env < s.store.frames.size → s.Knows (f :: vals) →
      Finished ((ofFuel fuel).apply env f vals s) →
      Reached (((ofFuel fuel).apply env f vals).after s)

theorem Session.Reached.sound {s : Session} (h : s.Reached) : s.Sound := by
  induction h with
  | start version limit trace verbose printer observers =>
    have hgrown := Grown.start version limit trace verbose printer observers
    exact ⟨⟨_, hgrown.forest⟩, Nat.one_pos⟩
  | step _ hstep ih => exact ih.step hstep
  | apply _ henv hknown hend ih => exact ih.apply henv hknown hend

/-! ## 6. Two calls in a row -/

theorem apply_unwatched (n : Nat) (env : FrameId) (f : Value) (vals : List Value) (s : Session) :
    Answer.unwatched ((ofFuel n).apply env f vals s.unwatched) =
      Answer.unwatched ((ofFuel n).apply env f vals s) :=
  (lasting_unminding.ofFuel n).2 env f vals s

/-- The session after an action that does not mind observers, without them. -/
theorem after_unwatched {α : Type} {m : EvalM α} {s : Session}
    (h : Answer.unwatched (m s.unwatched) = Answer.unwatched (m s)) :
    (m.after s.unwatched).unwatched = (m.after s).unwatched := by
  have hafter (s : Session) : m.after s = Answer.session (m s) := by
    unfold EvalM.after
    cases m s <;> rfl
  have hsession (r : Answer α) : (Answer.session r).unwatched = Answer.session r.unwatched := by
    cases r <;> rfl
  rw [hafter, hafter, hsession, hsession, h]

/-- A call does not know where it is made, so take a frame that is not there yet for its place. -/
theorem extends_apply (fuel : Nat) (env : FrameId) (name : Text) (params : Option (List Text))
    (body : List Value) (home : FrameId) (vals : List Value) (s : Session) : s.store.Extends
      (((ofFuel fuel).apply env (.closure name params body home) vals).after s).store := by
  rw [apply_closure_env fuel env s.store.frames.size]
  exact (progress_frames.apply fuel s.store.frames.size _ vals s).extends_of_new

theorem Session.Alike.unwatched {s t : Session} (h : s.Alike t) : s.unwatched.Alike t.unwatched :=
  ⟨h.version, h.root, h.limit, h.trace, h.verbose, h.printer, h.depth, rfl⟩

/-- The output is not among what observers note. -/
theorem outputSince_of_unwatched {s t u : Session} (h : t.unwatched = u.unwatched) :
    t.outputSince s = u.outputSince s := by
  have houtput : t.unwatched.output = u.unwatched.output := congrArg Session.output h
  unfold outputSince
  rw [show t.output = u.output from houtput]

section Twice

variable {s t : Session} {name : Text} {params : Option (List Text)} {body : List Value}
  {home : FrameId} {vals : List Value} {fuel : Nat}

/-- Without observers the states before the two calls correspond, and the calls stay paired. -/
theorem agree_apply (hs : s.Sound) (hprinter : s.printer.IgnoresNumbers) (halike : s.Alike t)
    (hext : s.store.Extends t.store)
    (hknown : s.Knows (.closure name params body home :: vals)) (env env' : FrameId) :
    (s.again t hext).Agree (s.again t hext).Value (0 : Nat)
      ((ofFuel fuel).apply env (.closure name params body home) vals s.unwatched)
      ((ofFuel fuel).apply env' (.closure name params body home) vals t.unwatched) := by
  have hsound : s.unwatched.Sound := ⟨hs.forest, hs.root⟩
  have hsessions : (s.again t hext).Sessions (0 : Nat) s.unwatched t.unwatched :=
    hsound.sessions hprinter halike.unwatched hext rfl rfl rfl
  obtain _ | ⟨hf, hvals⟩ := hknown.allLike t.store.frames.size
  rw [apply_closure_env fuel env s.unwatched.root, apply_closure_env fuel env' t.unwatched.root]
  exact ((s.again t hext).level_ofFuel rfl fuel).apply hsessions.root hf hvals hsessions

theorem repeats_apply (hs : s.Sound) (hprinter : s.printer.IgnoresNumbers)
    (hknown : s.Knows (.closure name params body home :: vals)) (env env' : FrameId)
    (hend : Finished ((ofFuel fuel).apply env (.closure name params body home) vals s))
    (ht : ((ofFuel fuel).apply env (.closure name params body home) vals).after s = t) :
    (((ofFuel fuel).apply env' (.closure name params body home) vals).after t).outputSince t =
        t.outputSince s ∧
      Answer.Repeats (Shifted s.store.frames.size t.store.frames.size
          (t.store.frames.size - s.store.frames.size))
        ((ofFuel fuel).apply env (.closure name params body home) vals s)
        ((ofFuel fuel).apply env' (.closure name params body home) vals t) := by
  have hext := extends_apply fuel env name params body home vals s
  have halike := progress_settings.apply fuel env (.closure name params body home) vals s
  have hfirst := apply_unwatched fuel env (.closure name params body home) vals s
  have hsecond := apply_unwatched fuel env' (.closure name params body home) vals t
  rw [ht] at hext halike
  have hend' : Finished ((ofFuel fuel).apply env (.closure name params body home) vals
      s.unwatched) := by
    rw [← Answer.finished_unwatched_iff, hfirst, Answer.finished_unwatched_iff]
    exact hend
  obtain ⟨houtput, hrepeats⟩ :=
    repeats_of_agree (agree_apply hs hprinter halike hext hknown env env') hend'
  -- what was said of sessions without observers holds with them
  have hafter := after_unwatched hfirst
  rw [ht] at hafter
  have hstore := congrArg Session.store hafter
  refine ⟨?_, ?_⟩
  · rw [← outputSince_of_unwatched (after_unwatched hsecond), ← outputSince_of_unwatched hafter]
    exact houtput
  · rw [← Answer.repeats_unwatched_iff, ← hfirst, ← hsecond, Answer.repeats_unwatched_iff]
    rw [show (EvalM.after _ s.unwatched).store = t.store from hstore] at hrepeats
    exact hrepeats

end Twice

/-- **Closures keep no state of their own.** In any state that a session reaches whose dumps do not
    tell the numbers of frames, apply a closure to values, and when that has ended do it again. The
    second application puts out what the first one did. If the first one gave a value, the second
    gives one that is printed alike and is the same but for the frames made meanwhile: a frame from
    before stands for itself, and the `k`th frame made by the first application for the `k`th made
    by the second. If the first one failed, the second fails with the same fault. In which frames
    the applications are made does not matter. -/
theorem closures_keep_no_state {s t : Session} (hs : s.Reached)
    (hprinter : s.printer.IgnoresNumbers) {f : Value}
    (hf : f.typeName = "closure") {vals : List Value} (hknown : s.Knows (f :: vals))
    (env env' : FrameId) {fuel : Nat} (hend : Finished ((ofFuel fuel).apply env f vals s))
    (ht : ((ofFuel fuel).apply env f vals).after s = t) :
    (((ofFuel fuel).apply env' f vals).after t).outputSince t = t.outputSince s ∧
      Answer.Repeats (Shifted s.store.frames.size t.store.frames.size
          (t.store.frames.size - s.store.frames.size))
        ((ofFuel fuel).apply env f vals s) ((ofFuel fuel).apply env' f vals t) := by
  cases f with
  | closure name params body home =>
    exact repeats_apply hs.sound hprinter hknown env env' hend ht
  | _ => simp [Value.typeName] at hf

/-- A function that prints what it sees of a name, gives the name another value and returns a
    closure that knows it. -/
def notingSource : Text :=
  "(def y 0)
   (defun note (x) (println x y) (def y (list x)) (set! y (list y y)) (lambda () y))"

def notingSession : Session := (evalText 50 notingSource).after (fresh "0.0.0")

/-- The function of that session. -/
def note : Value := (notingSession.find? "note").getD .unit

/-- The session after it was applied once. -/
def notedSession : Session := ((ofFuel 50).apply 0 note [.string "a"]).after notingSession

theorem closures_keep_no_state_note :
    notingSession.Reached ∧ notingSession.printer.IgnoresNumbers ∧ note.typeName = "closure" ∧
    notingSession.Knows [note, .string "a"] ∧
    notedSession.outputSince notingSession = [.printed "a 0\n"] ∧
    (((ofFuel 50).apply 1 note [.string "a"]).after notedSession).outputSince notedSession =
      notedSession.outputSince notingSession ∧
    Answer.Repeats (Shifted 1 2 1) ((ofFuel 50).apply 0 note [.string "a"] notingSession)
      ((ofFuel 50).apply 1 note [.string "a"] notedSession) := by
  have hruns : Answer.isOk (evalText 50 notingSource (fresh "0.0.0")) = true ∧
      Answer.isOk ((ofFuel 50).apply 0 note [.string "a"] notingSession) = true ∧
      note.typeName = "closure" ∧ notingSession.store.frames.size = 1 ∧
      notedSession.store.frames.size = 2 ∧
      (∀ home ∈ Value.homesAll [note, .string "a"], home < notingSession.store.frames.size) ∧
      notedSession.outputSince notingSession = [.printed "a 0\n"] := by decide +kernel
  obtain ⟨hdefined, hended, hnote, hsize, hsize', hknown, hprinted⟩ := hruns
  have hreached : notingSession.Reached :=
    .step (.start "0.0.0" defaultLimit false false .plain [])
      (.works (.run (Answer.finished_of_isOk hdefined)))
  have hprinter : notingSession.printer.IgnoresNumbers :=
    (alike_evalText 50 notingSource (fresh "0.0.0")).printer ▸ Printer.ignoresNumbers_plain
  have hagain := closures_keep_no_state hreached hprinter hnote hknown 0 1
    (Answer.finished_of_isOk hended) rfl
  rw [show ((ofFuel 50).apply 0 note [.string "a"]).after notingSession = notedSession from rfl,
    hsize, hsize'] at hagain
  exact ⟨hreached, hprinter, hnote, hknown, hprinted, hagain⟩

end SmallLisp
