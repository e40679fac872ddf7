import SmallLisp.Proofs.Eval.Pairing

/-!
# What definitions do to bindings

`def` and `defun` refuse a name that their frame binds already. `defun` looks at the frame right
before it writes, but `def` looks before it evaluates its expression, and the expression can bind
the name: then `def` writes over that binding (`define_overwrites`).

Apart from that no definition changes a binding. An evaluation that never comes to apply `set!`
leaves every binding that it finds with its value, in every frame, whether it succeeds or fails
(`eval_keeps`).
-/

namespace SmallLisp

open EvalM Evaluator

/-! ## 1. Stores that keep bindings -/

namespace Store

/-- Every binding of the first store is in the second, with its value. -/
def Keeps (s t : Store) : Prop :=
  ∀ i name v, s.local? i name = some v → t.local? i name = some v

theorem Keeps.refl (s : Store) : s.Keeps s := fun _ _ _ h => h

theorem Keeps.trans {s t u : Store} (h : s.Keeps t) (h' : t.Keeps u) : s.Keeps u :=
  fun i name v hv => h' i name v (h i name v hv)

theorem Extends.keeps {s t : Store} (h : s.Extends t) : s.Keeps t := by
  intro i name v hv
  unfold local? at hv ⊢
  obtain ⟨f, hf, hget⟩ := Option.bind_eq_some_iff.mp hv
  rw [h i f hf]
  exact hget

/-- Binding a name that was free keeps all bindings, also those made since. -/
theorem Keeps.set {s t : Store} (h : s.Keeps t) {i : FrameId} {name : Text}
    (hfree : s.local? i name = none) (v : Value) : s.Keeps (t.set i name v) := by
  intro j n w hw
  have hother : ¬ (j = i ∧ n = name) := by
    rintro ⟨rfl, rfl⟩
    rw [hfree] at hw
    cases hw
  rw [local?_set_of_ne t hother]
  exact h j n w hw

theorem keeps_enter (s : Store) (home : FrameId) (name : Text) (bindings : List (Text × Value)) :
    s.Keeps (s.enter home name bindings).2 := by
  have hpush := (extends_push s home name).but s.frames.size
  have hbound := extendsBut_foldl_set s.frames.size bindings (s.push home name).2
  exact (hpush.trans hbound).extends_of_new.keeps

end Store

/-! ## 2. Runs without assignment -/

/-- The function is `set!`. -/
def Native.assigns (f : Native) : Bool := f == .primitive .assign

/-- A run beside itself. The world is the store it has reached, and a later store keeps the
    bindings of an earlier one. -/
def Correspondence.keeping : Correspondence where
  World := Store
  le := Store.Keeps
  barred := Native.assigns
  loc := Eq
  frame _ := Eq
  store w st st' := st = w ∧ st' = w
  report := Eq
  printer := Eq
  le_refl := Store.Keeps.refl
  le_trans := Store.Keeps.trans
  loc_refl _ := rfl
  locate ha hb := Loc.orElse_congr ha hb
  frame_mono _ h := h
  report_add n h := Report.add_congr n h
  get? {w st st' i i'} name hst hi := by
    obtain ⟨rfl, rfl⟩ := hst
    subst hi
    cases st'.get? i name with
    | none => exact .none
    | some v => exact .some (Value.Like.refl (fun _ => rfl) (fun _ => rfl) v)
  isSome_local? {w st st' i i'} name hst hi := by
    obtain ⟨rfl, rfl⟩ := hst
    subst hi
    rfl
  set {w u st st' tu tu' i i' v v'} name hst hle htu hi hv hfree := by
    obtain ⟨rfl, rfl⟩ := hst
    obtain ⟨rfl, rfl⟩ := htu
    subst hi
    obtain rfl := hv.eq
    exact ⟨_, hle.set (hfree rfl) v, fun _ _ h => h, rfl, rfl⟩
  enter {w st st' home home' vals vals'} name params hst hhome hvals := by
    obtain ⟨rfl, rfl⟩ := hst
    subst hhome
    obtain rfl := hvals.eq
    exact ⟨_, st'.keeps_enter home name _, rfl, rfl, rfl⟩
  dump {w st st' p p' v v'} _ hp hst hv := by
    obtain ⟨rfl, rfl⟩ := hst
    rw [hp, hv.eq]
  probe {w st st' i i' name} _ hst hi := by
    obtain ⟨rfl, rfl⟩ := hst
    rw [hi]
  surroundings {w st st' i i' name} _ hst hi := by
    obtain ⟨rfl, rfl⟩ := hst
    rw [hi]

theorem Correspondence.keeping_sessions (s : Session) : keeping.Sessions s.store s s :=
  ⟨rfl, ⟨rfl, rfl⟩, rfl, rfl, rfl, rfl, rfl, rfl, rfl, rfl⟩

/-- **An evaluation that never applies `set!` keeps every binding it finds.** -/
theorem eval_keeps {s : Session} {env : FrameId} {form : Value} {r : Answer Value}
    (h : s.AnswersWithout Native.assigns env form r) : s.store.Keeps r.session.store := by
  have hform : Correspondence.keeping.Value s.store form form :=
    Value.Like.refl (fun _ => rfl) (fun _ => rfl) form
  obtain ⟨r', -, hagree⟩ :=
    Correspondence.keeping.answersWithout (Correspondence.keeping_sessions s) rfl hform h
  cases hagree with
  | ok hle _ ht =>
    obtain ⟨rfl, -⟩ := ht.store
    exact hle
  | fault hle _ ht =>
    obtain ⟨rfl, -⟩ := ht.store
    exact hle
  | outOfFuel => exact h.1.elim

/-! ## 3. Definitions -/

theorem checkUnbound_inv {env : FrameId} {name : Text} {loc : Loc} {s t : Session}
    (h : checkUnbound env name loc s = .ok () t) : s.store.local? env name = none ∧ t = s := by
  cases hlocal : s.store.local? env name with
  | none =>
    rw [Correspondence.Level.checkUnbound_of_none loc hlocal] at h
    cases h
    exact ⟨rfl, rfl⟩
  | some v =>
    rw [Correspondence.Level.checkUnbound_of_some loc (by rw [hlocal]; rfl)] at h
    cases h

/-- A definition that succeeds found its name free, and wrote it after its expression. -/
theorem define_inv {ev : Evaluator} {env : FrameId} {op : Text} {args : List Value} {v : Value}
    {s t : Session} (h : ev.define env op args s = .ok v t) :
    ∃ target form name loc u, args = [target, form] ∧ bare target = .atom name loc ∧
      s.store.local? env name = none ∧ ev.eval env form s = .ok v u ∧
      t = { u with store := u.store.set env name v } := by
  unfold define at h
  split at h
  · rename_i target form
    generalize hbare : bare target = b at h
    cases b with
    | atom name loc =>
      obtain ⟨_, s', hcheck, hrest⟩ := ok_of_bind h
      obtain ⟨hfree, rfl⟩ := checkUnbound_inv hcheck
      obtain ⟨w, u, heval, hwrite⟩ := ok_of_bind hrest
      cases hwrite
      exact ⟨target, form, name, loc, u, rfl, hbare, hfree, heval, rfl⟩
    | _ => cases h
  · cases h

/-- A function definition that succeeds found its name free when it wrote it. -/
theorem defun_inv {env : FrameId} {op : Text} {args : List Value} {v : Value} {s t : Session}
    (h : defun env op args s = .ok v t) :
    ∃ target ps body name loc names, args = target :: ps :: body ∧ bare target = .atom name loc ∧
      v = .closure name names (body.map bare) env ∧ s.store.local? env name = none ∧
      t = { s with store := s.store.set env name v } := by
  unfold defun at h
  split at h
  · rename_i target ps body
    generalize hbare : bare target = b at h
    cases b with
    | atom name loc =>
      obtain ⟨_, s', hcheck, hrest⟩ := ok_of_bind h
      obtain ⟨hfree, rfl⟩ := checkUnbound_inv hcheck
      obtain ⟨names, u, hnames, hwrite⟩ := ok_of_bind hrest
      cases hparams : params op (bare ps) with
      | ok names' =>
        rw [hparams] at hnames
        cases hnames
        cases hwrite
        exact ⟨target, ps, body, name, loc, names, rfl, hbare, rfl, hfree, rfl⟩
      | error e =>
        rw [hparams] at hnames
        cases hnames
    | _ => cases h
  · cases h

/-- **What definitions do to bindings.** A `def` that succeeds found its name free in its frame
    before it evaluated its expression, and binds it in the session that the expression left; so the
    only binding it can write over is one that its own expression made. A `defun` that succeeds
    found its name free at the moment it wrote. And an evaluation that never comes to apply `set!`
    keeps every binding that it finds, in every frame, however it ends. -/
theorem definitions_keep_bindings (n : Nat) (env : FrameId) (s : Session) :
    (∀ args v t, (ofFuel n).runPrimitive env .define args s = .ok v t →
      ∃ target form name loc u, args = [target, form] ∧ bare target = .atom name loc ∧
        s.store.local? env name = none ∧ (ofFuel n).eval env form s = .ok v u ∧
        t = { u with store := u.store.set env name v }) ∧
    (∀ args v t, (ofFuel n).runPrimitive env .defun args s = .ok v t →
      ∃ target ps body name loc names, args = target :: ps :: body ∧
        bare target = .atom name loc ∧ v = .closure name names (body.map bare) env ∧
        s.store.local? env name = none ∧ t = { s with store := s.store.set env name v }) ∧
    ∀ form r, s.AnswersWithout Native.assigns env form r → s.store.Keeps r.session.store := by
  refine ⟨fun args v t h => ?_, fun args v t h => ?_, fun form r h => ?_⟩
  · exact define_inv h
  · exact defun_inv h
  · exact eval_keeps h

/-! ## 4. A definition that overwrites -/

/-- The form `(do (def x "a") "b")`. -/
def rebindingForm : Value :=
  .list [.atom "do" Loc.start,
    .list [.atom "def" Loc.start, .atom "x" Loc.start, .string "a"] Loc.start,
    .string "b"] Loc.start

/-- The arguments of the definition `(def x (do (def x "a") "b"))`. -/
def rebindingArgs : List Value := [.atom "x" Loc.start, rebindingForm]

/-- The answer to its expression in a new session. -/
@[irreducible] def rebindingInner : Answer Value :=
  (ofFuel 20).eval 0 rebindingForm (Session.fresh "0.0.0")

/-- The answer to the definition. -/
@[irreducible] def rebindingOuter : Answer Value :=
  (ofFuel 20).runPrimitive 0 .define rebindingArgs (Session.fresh "0.0.0")

/-- The answer to the call of `def`, without `set!`. -/
@[irreducible] def rebindingCall : Answer Value :=
  (barring Native.assigns 20).eval 0 (.list (.atom "def" Loc.start :: rebindingArgs) Loc.start)
    (Session.fresh "0.0.0")

/-- The source form of what the session of an answer binds to `x` in the root frame. -/
def Answer.boundX (r : Answer Value) : Option Text :=
  (r.session.store.local? 0 "x").map Value.sexp

theorem isOk_rebindingOuter : rebindingOuter.isOk = true := by decide +kernel

theorem rebindingCall_answers : (Session.fresh "0.0.0").AnswersWithout Native.assigns 0
    (.list (.atom "def" Loc.start :: rebindingArgs) Loc.start) rebindingCall :=
  ⟨Answer.finished_of_isOk (by decide +kernel), 20, by rw [rebindingCall]⟩

/-- **`def` can write over a binding.** When its expression has been evaluated, `x` is bound to
    `"a"`; the definition succeeds all the same and leaves `x` bound to `"b"`, and so does its call,
    which never comes to apply `set!`. -/
theorem define_overwrites :
    (rebindingInner.isOk = true ∧ rebindingInner.boundX = some "\"a\"") ∧
    (rebindingOuter.isOk = true ∧ rebindingOuter.boundX = some "\"b\"") ∧
    (Session.fresh "0.0.0").AnswersWithout Native.assigns 0
      (.list (.atom "def" Loc.start :: rebindingArgs) Loc.start) rebindingCall ∧
    rebindingCall.boundX = some "\"b\"" := by
  refine ⟨⟨?_, ?_⟩, ⟨isOk_rebindingOuter, ?_⟩, rebindingCall_answers, ?_⟩ <;> decide +kernel

theorem definitions_keep_bindings_rebinding :
    (∃ v t, (ofFuel 20).runPrimitive 0 .define rebindingArgs (Session.fresh "0.0.0") = .ok v t ∧
      ∃ target form name loc u, rebindingArgs = [target, form] ∧ bare target = .atom name loc ∧
        (Session.fresh "0.0.0").store.local? 0 name = none ∧
        (ofFuel 20).eval 0 form (Session.fresh "0.0.0") = .ok v u ∧
        t = { u with store := u.store.set 0 name v }) ∧
    (Session.fresh "0.0.0").store.Keeps rebindingCall.session.store := by
  have hkept := definitions_keep_bindings 20 0 (Session.fresh "0.0.0")
  have hdefined := isOk_rebindingOuter
  rw [rebindingOuter] at hdefined
  obtain ⟨v, t, hok⟩ := Answer.exists_of_isOk hdefined
  exact ⟨⟨v, t, hok, hkept.1 _ _ _ hok⟩, hkept.2.2 _ _ rebindingCall_answers⟩

end SmallLisp
