import SmallLisp.Proofs.Eval.Conduct

/-!
# What an evaluation is made of

An evaluation consists of few kinds of steps, whatever program it runs: a look at the frames, a
binding in the frame it runs in, output, the evaluation of a form in that frame, the application of
a function, a body in a new frame, and the bookkeeping around an application. `Routine` lists them.
This file shows that everything the evaluator does is a routine:

* `routine_runPrimitive`: so is every function of the language, whatever values it handles, and only
  `apply` applies a function to values;
* `routine_evalForm`, `routine_applyValues`: so is one level of evaluation;
* `Lasting.eval`, `Lasting.apply`: hence a property of actions that every step hands on (`Lasting`)
  holds of every evaluation, with whatever fuel.
-/

namespace SmallLisp

open EvalM Evaluator

/-! ## 1. Routines -/

/-- What can be made of an evaluator in frame `env`. `applies` says whether functions may be applied
    to values. -/
inductive Routine (applies : Prop) : FrameId → {α : Type} → (Evaluator → EvalM α) → Prop where
  | pure {env : FrameId} {α : Type} (a : α) : Routine applies env fun _ => pure a
  | fail {env : FrameId} {α : Type} (f : Fault) :
      Routine applies env fun _ => (EvalM.fail f : EvalM α)
  | bind {env : FrameId} {α β : Type} {m : Evaluator → EvalM α} {k : α → Evaluator → EvalM β}
      (hm : Routine applies env m) (hk : ∀ a, Routine applies env (k a)) :
      Routine applies env fun ev => m ev >>= fun a => k a ev
  /-- Looks at the session. -/
  | look {env : FrameId} {α : Type} (k : Session.View → Evaluator → EvalM α)
      (hk : ∀ seen, Routine applies env (k seen)) :
      Routine applies env fun ev => get >>= fun s => k s.view ev
  | bindName {env : FrameId} (name : Text) (v : Value) :
      Routine applies env fun _ => Evaluator.bindName env name v
  /-- Puts out some texts, given newest first. -/
  | put {env : FrameId} (out : List Output) :
      Routine applies env fun _ => modify fun s => { s with output := out ++ s.output }
  | probe {env : FrameId} (name args : Text) :
      Routine applies env fun _ =>
        modify fun s => s.record (.probe name s.depth (s.store.depth env) args)
  | eval {env : FrameId} (form : Value) : Routine applies env fun ev => ev.eval env form
  | apply {env : FrameId} (h : applies) (f : Value) (vals : List Value) :
      Routine applies env fun ev => ev.apply env f vals
  /-- Goes on in a new frame inside frame `home`. -/
  | inside {env : FrameId} {α : Type} (home : FrameId) (name : Text)
      (bindings : List (Text × Value)) {k : FrameId → Evaluator → EvalM α}
      (hk : ∀ frame, Routine applies frame (k frame)) :
      Routine applies env fun ev => pushFrame home name bindings >>= fun frame => k frame ev
  | observed {env : FrameId} (name : Text) (args : List Value) {m : Evaluator → EvalM Value}
      (hm : Routine applies env m) :
      Routine applies env fun ev => EvalM.observed name args (m ev)
  | nested {env : FrameId} {α : Type} (loc : Loc) {m : Evaluator → EvalM α}
      (hm : Routine applies env m) :
      Routine applies env fun ev => EvalM.nested (checkDepth loc >>= fun _ => m ev)
  | located {env : FrameId} {α : Type} (loc : Loc) {m : Evaluator → EvalM α}
      (hm : Routine applies env m) :
      Routine applies env fun ev => EvalM.located loc (m ev)

/-- What functions do are steps of a routine. -/
theorem Conduct.routine {applies : Prop} {env : FrameId} {α : Type} {values : α → List Value}
    {m : Evaluator → EvalM α} (h : Conduct applies (fun _ => True) env values m) :
    Routine applies env m := by
  induction h with
  | pure h => exact .pure _
  | fail f => exact .fail f
  | bind _ _ ihm ihk => exact .bind ihm fun a => ihk a fun _ _ => trivial
  | look k _ ihk => exact .look k ihk
  | bindName name h => exact .bindName name _
  | put out => exact .put out
  | probe name args => exact .probe name args
  | eval h => exact .eval _
  | apply h _ _ => exact .apply h _ _
  | inside home name _ _ ihk => exact .inside home name _ ihk
  | observed name args _ ih => exact .observed name args ih

/-! ## 2. Application -/

section Application

variable {applies : Prop} {env : FrameId}

theorem routine_raise {α : Type} (e : EvalError) :
    Routine applies env fun _ => (raise e : EvalM α) := .fail _

theorem routine_evalAll (forms : List Value) :
    Routine applies env fun ev => ev.evalAll env forms :=
  (conduct_evalAll fun _ _ => .form trivial).routine

theorem routine_evalSequence (forms : List Value) :
    Routine applies env fun ev => ev.evalSequence env forms :=
  (conduct_evalSequence Value.closed_true fun _ _ => .form trivial).routine

/-- **Every function of the language is a routine, and only `apply` applies functions to
    values.** -/
theorem routine_runPrimitive (p : Primitive) (h : p = .apply → applies) (args : List Value) :
    Routine applies env fun ev => ev.runPrimitive env p args :=
  (conduct_runPrimitive Value.closed_true (fun _ _ => .form trivial) p h).routine

theorem routine_callClosure (name : Text) (params : List Text) (body : List Value) (home : FrameId)
    (vals : List Value) :
    Routine applies env fun ev => ev.callClosure name params body home vals :=
  (conduct_callClosure Value.closed_true name params home (fun _ _ => trivial)
    fun _ _ => trivial).routine

theorem routine_applyForms (loc : Loc) (f : Value) (h : f = .native (.primitive .apply) → applies)
    (args : List Value) : Routine applies env fun ev => ev.applyForms env loc f args :=
  (conduct_applyForms Value.closed_true (fun _ _ => .form trivial) loc trivial h).routine

theorem routine_applyValues (f : Value) (h : f = .native (.primitive .apply) → applies)
    (vals : List Value) : Routine applies env fun ev => ev.applyValues env f vals :=
  (conduct_applyValues Value.closed_true trivial (fun _ _ => trivial) h).routine

/-! ## 3. Forms -/

theorem evalForm_atom (ev : Evaluator) (env : FrameId) (name : Text) (loc : Loc) :
    ev.evalForm env (.atom name loc) = get >>= fun s =>
      (s.store.get? env name).elim (raise ⟨loc, .undefinedVariable name⟩) pure := by
  unfold evalForm
  dsimp only
  apply bind_congr
  intro s
  cases s.store.get? env name <;> rfl

theorem routine_atom (name : Text) (loc : Loc) :
    Routine applies env fun ev => ev.evalForm env (.atom name loc) := by
  simp only [evalForm_atom]
  refine .look (fun seen _ => (seen.store.get? env name).elim _ pure) fun seen => ?_
  cases seen.store.get? env name with
  | none => exact routine_raise _
  | some v => exact .pure v

/-- **One level of evaluation is a routine.** -/
theorem routine_evalForm (h : applies) (form : Value) :
    Routine applies env fun ev => ev.evalForm env form := by
  unfold evalForm
  split
  · exact routine_atom _ _
  · exact .pure _
  · exact routine_evalSequence _
  · exact .pure _
  · rename_i head args loc
    exact .nested loc (.bind (.eval head) fun f =>
      .located loc (routine_applyForms loc f (fun _ => h) args))
  · exact .pure _

end Application

/-! ## 4. What every step hands on -/

/-- A property of actions in a frame that holds of an action as soon as it holds of its parts. -/
structure Lasting (P : FrameId → {α : Type} → EvalM α → Prop) : Prop where
  pure {env : FrameId} {α : Type} (a : α) : P env (pure a : EvalM α)
  fail {env : FrameId} {α : Type} (f : Fault) : P env (EvalM.fail f : EvalM α)
  outOfFuel {env : FrameId} {α : Type} : P env (throw .outOfFuel : EvalM α)
  bind {env : FrameId} {α β : Type} {m : EvalM α} {k : α → EvalM β} :
    P env m → (∀ a, P env (k a)) → P env (m >>= k)
  look {env : FrameId} {α : Type} (k : Session.View → EvalM α) :
    (∀ seen, P env (k seen)) → P env (get >>= fun s => k s.view)
  bindName {env : FrameId} (name : Text) (v : Value) : P env (Evaluator.bindName env name v)
  put {env : FrameId} (out : List Output) :
    P env (modify fun s => { s with output := out ++ s.output } : EvalM Unit)
  probe {env : FrameId} (name args : Text) :
    P env (modify fun s => s.record (.probe name s.depth (s.store.depth env) args) : EvalM Unit)
  inside {env : FrameId} {α : Type} (home : FrameId) (name : Text) (bindings : List (Text × Value))
    {k : FrameId → EvalM α} :
    (∀ frame, P frame (k frame)) → P env (pushFrame home name bindings >>= k)
  observed {env : FrameId} (name : Text) (args : List Value) {m : EvalM Value} :
    P env m → P env (EvalM.observed name args m)
  nested {env : FrameId} {α : Type} (loc : Loc) {m : EvalM α} :
    P env m → P env (EvalM.nested (checkDepth loc >>= fun _ => m))
  located {env : FrameId} {α : Type} (loc : Loc) {m : EvalM α} :
    P env m → P env (EvalM.located loc m)

namespace Lasting

variable {P : FrameId → {α : Type} → EvalM α → Prop}

/-- A routine has a lasting property if the evaluator it uses has it. -/
theorem routine (hP : Lasting P) {ev : Evaluator} (heval : ∀ env form, P env (ev.eval env form))
    (happly : ∀ env f vals, P env (ev.apply env f vals)) {applies : Prop} {env : FrameId} {α : Type}
    {m : Evaluator → EvalM α} (h : Routine applies env m) : P env (m ev) := by
  induction h with
  | pure a => exact hP.pure a
  | fail f => exact hP.fail f
  | bind _ _ ihm ihk => exact hP.bind ihm ihk
  | look k _ ihk => exact hP.look (fun seen => k seen ev) ihk
  | bindName name v => exact hP.bindName name v
  | put out => exact hP.put out
  | probe name args => exact hP.probe name args
  | eval form => exact heval _ form
  | apply _ f vals => exact happly _ f vals
  | inside home name bindings _ ihk => exact hP.inside home name bindings ihk
  | observed name args _ ih => exact hP.observed name args ih
  | nested loc _ ih => exact hP.nested loc ih
  | located loc _ ih => exact hP.located loc ih

/-- **A lasting property holds of every evaluation and of every application.** -/
theorem ofFuel (hP : Lasting P) (n : Nat) :
    (∀ env form, P env ((ofFuel n).eval env form)) ∧
      ∀ env f vals, P env ((ofFuel n).apply env f vals) := by
  induction n with
  | zero => exact ⟨fun _ _ => hP.outOfFuel, fun _ _ _ => hP.outOfFuel⟩
  | succ n ih =>
    exact ⟨fun _ form => hP.routine ih.1 ih.2 (routine_evalForm trivial form),
      fun _ f vals => hP.routine ih.1 ih.2 (routine_applyValues f (fun _ => trivial) vals)⟩

end Lasting

end SmallLisp
