import SmallLisp.Proofs.Eval.Routine
import SmallLisp.Proofs.Scope

/-!
# What an evaluation leaves as it was

An evaluation works on the whole session, but it changes little of what was there before it:

* `Progress`: what has to be shown of a relation between sessions so that every evaluation leads
  from a session to a related one, whether it succeeds or fails;
* `progress_settings`: the settings of the session and the count of applications in progress are
  the same before and after;
* `eval_writes_own_frame`: of the frames that are there before, only the bindings of the frame in
  which the evaluation runs may differ after it, and the application of a closure changes none.
-/

namespace SmallLisp

open EvalM Evaluator

/-! ## 1. The session after an action -/

/-- The session after an action, however it ended. -/
def EvalM.after {α : Type} (m : EvalM α) (s : Session) : Session :=
  match m s with
  | .ok _ s' => s'
  | .error _ s' => s'

theorem after_bind_ok {α β : Type} {m : EvalM α} {k : α → EvalM β} {s s' : Session} {a : α}
    (h : m s = .ok a s') : (m >>= k).after s = (k a).after s' := by
  show (match EStateM.bind m k s with | .ok _ s' => s' | .error _ s' => s') = _
  unfold EStateM.bind
  rw [h]
  rfl

theorem after_bind_error {α β : Type} {m : EvalM α} {k : α → EvalM β} {s s' : Session} {e : Stop}
    (h : m s = .error e s') : (m >>= k).after s = s' := by
  show (match EStateM.bind m k s with | .ok _ s' => s' | .error _ s' => s') = _
  unfold EStateM.bind
  rw [h]

theorem after_located {α : Type} (loc : Loc) (m : EvalM α) (s : Session) :
    (located loc m).after s = m.after s := by
  unfold EvalM.after located
  cases h : m s with
  | ok a s' => rfl
  | error e s' => cases e <;> rfl

theorem after_nested {α : Type} (m : EvalM α) (s : Session) :
    (nested m).after s =
      let t := m.after { s with depth := s.depth + 1 }
      { t with depth := t.depth - 1 } := by
  unfold EvalM.after nested
  cases h : m { s with depth := s.depth + 1 } <;> rfl

/-! ## 2. Relations that every evaluation keeps -/

/-- What has to hold of a relation between sessions, given for each frame an evaluation can run in,
    so that every evaluation leads from a session to a related one. -/
structure Progress (R : FrameId → Session → Session → Prop) : Prop where
  refl (env : FrameId) (s : Session) : R env s s
  trans {env : FrameId} {s t u : Session} : R env s t → R env t u → R env s u
  bindName (env : FrameId) (s : Session) (name : Text) (v : Value) :
    R env s { s with store := s.store.set env name v }
  /-- Output, counts and journal are free to change. -/
  report (env : FrameId) (s : Session) (output : List Output) (started finished : Tally)
    (journal : List Event) : R env s { s with output, started, finished, journal }
  /-- A body runs in a new frame, in which its parameters have been bound. -/
  inside (env home : FrameId) (name : Text) (bindings : List (Text × Value)) {s t : Session} :
    let (frame, store) := s.store.push home name
    R frame { s with store := bindings.foldl (fun st (n, v) => st.set frame n v) store } t →
      R env s t
  nested {env : FrameId} {s t : Session} :
    R env { s with depth := s.depth + 1 } t → R env s { t with depth := t.depth - 1 }

namespace Progress

variable {R : FrameId → Session → Session → Prop} (hR : Progress R)

include hR

theorem foldl_tell {env : FrameId} {tell : Session → Observer → Session}
    (htell : ∀ s o, R env s (tell s o)) (os : List Observer) (s : Session) :
    R env s (os.foldl tell s) := by
  induction os generalizing s with
  | nil => exact hR.refl env s
  | cons o os ih => exact hR.trans (htell s o) (ih _)

theorem announce (env : FrameId) (s : Session) (name : Text) (args : List Value) :
    R env s (s.announce name args) := by
  have htell : ∀ s o, R env s (Session.tellBefore name args s o) := by
    intro s o
    cases o <;> exact hR.report env s _ _ _ _
  unfold Session.announce
  split
  · exact hR.trans (hR.report env s _ _ _ _) (hR.foldl_tell htell _ _)
  · exact hR.foldl_tell htell _ _

theorem conclude (env : FrameId) (s : Session) (name : Text) (v : Value) :
    R env s (s.conclude name v) := by
  refine hR.foldl_tell (fun s o => ?_) s.observers s
  cases o <;> exact hR.report env s _ _ _ _

theorem bind {env : FrameId} {α β : Type} {m : EvalM α} {k : α → EvalM β}
    (hm : ∀ s, R env s (m.after s)) (hk : ∀ a s, R env s ((k a).after s)) (s : Session) :
    R env s ((m >>= k).after s) := by
  have h := hm s
  cases hms : m s with
  | ok a s' =>
    rw [after_bind_ok hms]
    unfold EvalM.after at h
    rw [hms] at h
    exact hR.trans h (hk a s')
  | error e s' =>
    rw [after_bind_error hms]
    unfold EvalM.after at h
    rw [hms] at h
    exact h

theorem observed {env : FrameId} (name : Text) (args : List Value) {m : EvalM Value}
    (hm : ∀ s, R env s (m.after s)) (s : Session) :
    R env s ((EvalM.observed name args m).after s) := by
  refine hR.bind (fun s => hR.announce env s name args) (fun _ => ?_) s
  refine hR.bind hm (fun v => ?_)
  exact hR.bind (fun s => hR.conclude env s name v) (fun _ s => hR.refl env s)

theorem checkDepth (env : FrameId) (loc : Loc) (s : Session) :
    R env s ((EvalM.checkDepth loc).after s) := by
  unfold EvalM.checkDepth
  refine hR.bind (fun s => hR.refl env s) (fun s' => ?_) s
  split
  · exact fun s => hR.refl env s
  · exact fun s => hR.refl env s

/-- **Every evaluation leads from a session to a related one.** -/
theorem lasting : Lasting fun env _ m => ∀ s, R env s (m.after s) where
  pure _ s := hR.refl _ s
  fail _ s := hR.refl _ s
  outOfFuel s := hR.refl _ s
  bind := hR.bind
  look _ hk s := hk s.view s
  bindName name v s := hR.bindName _ s name v
  put _ s := hR.report _ s _ _ _ _
  probe _ _ s := hR.report _ s _ _ _ _
  inside home name bindings _ hk s := hR.inside _ home name bindings (hk _ _)
  observed := hR.observed
  nested loc _ hm s := by
    rw [after_nested]
    exact hR.nested (hR.bind (hR.checkDepth _ loc) (fun _ => hm) _)
  located loc _ hm s := by
    rw [after_located]
    exact hm s

theorem eval (n : Nat) (env : FrameId) (form : Value) (s : Session) :
    R env s (((ofFuel n).eval env form).after s) := (hR.lasting.ofFuel n).1 env form s

theorem apply (n : Nat) (env : FrameId) (f : Value) (vals : List Value) (s : Session) :
    R env s (((ofFuel n).apply env f vals).after s) := (hR.lasting.ofFuel n).2 env f vals s

end Progress

/-! ## 3. Settings -/

/-- The sessions have the same settings, and as many applications are in progress. -/
structure Session.Alike (s t : Session) : Prop where
  version : t.version = s.version
  root : t.root = s.root
  limit : t.limit = s.limit
  trace : t.trace = s.trace
  verbose : t.verbose = s.verbose
  printer : t.printer = s.printer
  depth : t.depth = s.depth
  observers : t.observers = s.observers

theorem Session.Alike.refl (s : Session) : s.Alike s :=
  ⟨rfl, rfl, rfl, rfl, rfl, rfl, rfl, rfl⟩

theorem Session.Alike.trans {s t u : Session} (h : s.Alike t) (h' : t.Alike u) : s.Alike u :=
  ⟨h'.version.trans h.version, h'.root.trans h.root, h'.limit.trans h.limit,
    h'.trace.trans h.trace, h'.verbose.trans h.verbose, h'.printer.trans h.printer,
    h'.depth.trans h.depth, h'.observers.trans h.observers⟩

/-- **An evaluation changes no setting, and ends with as many applications in progress as it started
    with.** -/
theorem progress_settings : Progress fun _ s t => s.Alike t where
  refl _ s := .refl s
  trans h h' := h.trans h'
  bindName _ _ _ _ := ⟨rfl, rfl, rfl, rfl, rfl, rfl, rfl, rfl⟩
  report _ _ _ _ _ _ := ⟨rfl, rfl, rfl, rfl, rfl, rfl, rfl, rfl⟩
  inside _ _ _ _ _ _ h :=
    ⟨h.version, h.root, h.limit, h.trace, h.verbose, h.printer, h.depth, h.observers⟩
  nested h := by
    refine ⟨h.version, h.root, h.limit, h.trace, h.verbose, h.printer, ?_, h.observers⟩
    show _ - 1 = _
    rw [h.depth]
    rfl

/-! ## 4. Frames -/

/-- A body that writes only to its own new frame leaves all the others as they were. -/
theorem extends_of_body {s t : Store} (home : FrameId) (name : Text)
    (bindings : List (Text × Value))
    (h : (bindings.foldl (fun st (n, v) => st.set s.frames.size n v)
      (s.push home name).2).ExtendsBut s.frames.size t) : s.Extends t := by
  have hpush := (s.extends_push home name).but s.frames.size
  have hbind := Store.extendsBut_foldl_set s.frames.size bindings (s.push home name).2
  exact ((hpush.trans hbind).trans h).extends_of_new

theorem progress_frames : Progress fun env s t => s.store.ExtendsBut env t.store where
  refl env s := .refl env s.store
  trans h h' := h.trans h'
  bindName env s name v := s.store.extendsBut_set env name v
  report env s _ _ _ _ := .refl env s.store
  inside env home name bindings _ _ h := (extends_of_body home name bindings h).but env
  nested h := h

/-- The application of a closure does not depend on the frame it happens in. -/
theorem apply_closure_env (n : Nat) (env env' : FrameId) (name : Text) (params : Option (List Text))
    (body : List Value) (home : FrameId) (vals : List Value) :
    (ofFuel n).apply env (.closure name params body home) vals =
      (ofFuel n).apply env' (.closure name params body home) vals := by
  cases n <;> rfl

/-- **An evaluation writes only the frame it runs in.** Every frame that is there before keeps its
    name and its parent, and its bindings too unless the evaluation runs in it. The application of a
    closure leaves every frame as it was. All this holds however the evaluation ends. -/
theorem eval_writes_own_frame (n : Nat) (env : FrameId) (s : Session) :
    (∀ form, s.store.ExtendsBut env (((ofFuel n).eval env form).after s).store) ∧
      (∀ name params body home vals, s.store.Extends
        (((ofFuel n).apply env (.closure name params body home) vals).after s).store) ∧
      ∀ name params body home vals, s.store.Extends
        (((ofFuel n).callClosure name params body home vals).after s).store := by
  refine ⟨fun form => progress_frames.eval n env form s, ?_, ?_⟩
  -- A call does not know where it is made, so take a frame that is not there yet for its place.
  · intro name params body home vals
    rw [apply_closure_env n env s.store.frames.size]
    exact (progress_frames.apply n s.store.frames.size _ vals s).extends_of_new
  · intro name params body home vals
    have hcall : Routine True s.store.frames.size fun ev =>
        ev.callClosure name params body home vals := routine_callClosure name params body home vals
    have hfuel := progress_frames.lasting.ofFuel n
    exact (progress_frames.lasting.routine hfuel.1 hfuel.2 hcall s).extends_of_new

end SmallLisp
