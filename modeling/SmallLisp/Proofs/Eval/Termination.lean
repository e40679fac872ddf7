import SmallLisp.Proofs.Eval.Frames
import SmallLisp.Proofs.Eval.Fuel

/-!
# Evaluation under a limit ends

A session with a limit on nested applications evaluates every form in finitely many steps
(`eval_ends`), although a closure may call itself, `eval` runs forms that were computed, and neither
closure bodies nor applications to values count as nesting.

The argument has three layers. The outermost counts down how many applications may still be nested:
only a list form adds one, and below it every evaluation ends. At one level, forms are taken apart
from the outside in, since a sequence evaluates its parts where it stands. And `apply`, which calls
the evaluator again without nesting, passes on only parts of its argument list.
-/

namespace SmallLisp

open EvalM Evaluator

/-! ## 1. Actions that end -/

/-- With enough fuel the action finishes. -/
def Settles {α : Type} (m : Evaluator → EvalM α) (s : Session) : Prop :=
  ∃ n, Finished (m (ofFuel n) s)

/-- The action settles in every session with limit `limit` in which `depth` applications are in
    progress. -/
def EndsAt (limit depth : Nat) {α : Type} (m : Evaluator → EvalM α) : Prop :=
  ∀ s : Session, s.limit = limit → s.depth = depth → Settles m s

section

variable {limit depth : Nat} {applies : Prop} {env : FrameId}

theorem Routine.alike {α : Type} {m : Evaluator → EvalM α} (h : Routine applies env m) (n : Nat)
    (s : Session) : s.Alike ((m (ofFuel n)).after s) :=
  progress_settings.lasting.routine (progress_settings.lasting.ofFuel n).1
    (progress_settings.lasting.ofFuel n).2 h s

theorem EndsAt.bind {α β : Type} {m : Evaluator → EvalM α} {k : α → Evaluator → EvalM β}
    (hm : Routine applies env m) (hk : ∀ a, Routine applies env (k a))
    (em : EndsAt limit depth m) (ek : ∀ a, EndsAt limit depth (k a)) :
    EndsAt limit depth fun ev => m ev >>= fun a => k a ev := by
  intro s hlimit hdepth
  obtain ⟨n, hn⟩ := em s hlimit hdepth
  have halike := hm.alike n s
  unfold EvalM.after at halike
  cases hms : m (ofFuel n) s with
  | ok a s' =>
    rw [hms] at halike
    obtain ⟨n', hn'⟩ := ek a s' (halike.limit.trans hlimit) (halike.depth.trans hdepth)
    refine ⟨max n n', ?_⟩
    have hm' := hm.stable (Nat.le_max_left n n') s hn
    have hk' := (hk a).stable (Nat.le_max_right n n') s' hn'
    show Finished (EStateM.bind _ _ s)
    unfold EStateM.bind
    rw [hm', hms]
    show Finished (k a (ofFuel (max n n')) s')
    rw [hk']
    exact hn'
  | error e s' =>
    refine ⟨n, ?_⟩
    rw [hms] at hn
    show Finished (EStateM.bind _ _ s)
    unfold EStateM.bind
    rw [hms]
    cases e <;> exact hn

theorem EndsAt.observed (name : Text) (args : List Value) {m : Evaluator → EvalM Value}
    (em : EndsAt limit depth m) : EndsAt limit depth fun ev => EvalM.observed name args (m ev) := by
  intro s hlimit hdepth
  have hann := progress_settings.announce s.root s name args
  obtain ⟨n, hn⟩ := em (s.announce name args) (hann.limit.trans hlimit) (hann.depth.trans hdepth)
  refine ⟨n, ?_⟩
  show Finished (EStateM.bind (m (ofFuel n)) _ (s.announce name args))
  unfold EStateM.bind
  cases hms : m (ofFuel n) (s.announce name args) with
  | ok a s' => trivial
  | error e s' =>
    rw [hms] at hn
    exact hn

theorem EndsAt.located {α : Type} (loc : Loc) {m : Evaluator → EvalM α}
    (em : EndsAt limit depth m) : EndsAt limit depth fun ev => EvalM.located loc (m ev) := by
  intro s hlimit hdepth
  obtain ⟨n, hn⟩ := em s hlimit hdepth
  refine ⟨n, ?_⟩
  show Finished (EvalM.located loc (m (ofFuel n)) s)
  unfold EvalM.located
  cases hms : m (ofFuel n) s with
  | ok a s' => trivial
  | error e s' =>
    rw [hms] at hn
    cases e <;> exact hn

theorem checkDepth_ok (loc : Loc) {s : Session} (h : s.depth ≤ s.limit) :
    checkDepth loc s = .ok () s := by
  show (if 0 < s.limit ∧ s.limit < s.depth then raise ⟨loc, .depthExceeded s.limit⟩
    else pure () : EvalM Unit) s = _
  rw [if_neg (by omega)]
  rfl

theorem checkDepth_exceeded (loc : Loc) {s : Session} (h0 : 0 < s.limit) (h : s.limit < s.depth) :
    checkDepth loc s = .error (.fault (.eval ⟨loc, .depthExceeded s.limit⟩)) s := by
  show (if 0 < s.limit ∧ s.limit < s.depth then raise ⟨loc, .depthExceeded s.limit⟩
    else pure () : EvalM Unit) s = _
  rw [if_pos ⟨h0, h⟩]
  rfl

/-- A list form ends if what happens inside it does, one application deeper, as long as the limit
    lets it happen. -/
theorem EndsAt.nested {α : Type} (loc : Loc) {m : Evaluator → EvalM α} (hlimit : 0 < limit)
    (em : depth < limit → EndsAt limit (depth + 1) m) :
    EndsAt limit depth fun ev => EvalM.nested (checkDepth loc >>= fun _ => m ev) := by
  rintro s rfl rfl
  by_cases hd : s.depth < s.limit
  · obtain ⟨n, hn⟩ := em hd { s with depth := s.depth + 1 } rfl rfl
    refine ⟨n, ?_⟩
    show Finished (EvalM.nested (EStateM.bind (checkDepth loc) fun _ => m (ofFuel n)) s)
    unfold EvalM.nested EStateM.bind
    rw [checkDepth_ok loc (s := { s with depth := s.depth + 1 }) hd]
    dsimp only
    cases hms : m (ofFuel n) { s with depth := s.depth + 1 } with
    | ok a s' => trivial
    | error e s' =>
      rw [hms] at hn
      cases e <;> exact hn
  · refine ⟨0, ?_⟩
    show Finished (EvalM.nested (EStateM.bind (checkDepth loc) fun _ => m (ofFuel 0)) s)
    unfold EvalM.nested EStateM.bind
    rw [checkDepth_exceeded loc (s := { s with depth := s.depth + 1 }) hlimit
      (show s.limit < s.depth + 1 by omega)]
    trivial

end

/-! ## 2. Layers -/

/-- Every form ends at this depth. -/
def FormsEnd (limit depth : Nat) : Prop :=
  ∀ env form, EndsAt limit depth fun ev => ev.eval env form

/-- Every application to values ends at this depth. -/
def ApplicationsEnd (limit depth : Nat) : Prop :=
  ∀ env f vals, EndsAt limit depth fun ev => ev.apply env f vals

section

variable {limit depth : Nat}

/-- A routine ends if the evaluations and the applications that it may use do, there and deeper. -/
theorem Routine.ends {applies : Prop} {env : FrameId} {α : Type} {m : Evaluator → EvalM α}
    (h : Routine applies env m) (hlimit : 0 < limit) (hforms : ∀ d, depth ≤ d → FormsEnd limit d)
    (happly : applies → ∀ d, depth ≤ d → ApplicationsEnd limit d) : EndsAt limit depth m := by
  induction h generalizing depth with
  | pure a => exact fun _ _ _ => ⟨0, trivial⟩
  | fail f => exact fun _ _ _ => ⟨0, trivial⟩
  | bind hm hk ihm ihk => exact .bind hm hk (ihm hforms happly) fun a => ihk a hforms happly
  | look k _ ihk => exact fun s => ihk s.view hforms happly s
  | bindName name v => exact fun _ _ _ => ⟨0, trivial⟩
  | put out => exact fun _ _ _ => ⟨0, trivial⟩
  | probe name args => exact fun _ _ _ => ⟨0, trivial⟩
  | eval form => exact hforms depth (Nat.le_refl depth) _ form
  | apply h f vals => exact happly h depth (Nat.le_refl depth) _ f vals
  | inside home name bindings _ ihk =>
    exact fun s hl hd => ihk s.store.frames.size hforms happly _ hl hd
  | observed name args _ ih => exact .observed name args (ih hforms happly)
  | nested loc _ ih =>
    exact .nested loc hlimit fun _ => ih (fun d hd => hforms d (Nat.le_of_succ_le hd))
      fun h d hd => happly h d (Nat.le_of_succ_le hd)
  | located loc _ ih => exact .located loc (ih hforms happly)

/-- What `apply` does with the two arguments that an application passes it. -/
theorem applyTo_marked (n : Nat) (env : FrameId) (op : Text) (f items : Value) (s : Session) :
    (ofFuel (n + 1)).applyTo env op [.quote f true, .quote items true] s =
      (ofExcept (listItems op items) >>= fun vals => (ofFuel (n + 1)).apply env f vals) s := rfl

theorem sizeOf_listItems_lt {op : Text} {items : Value} {vals : List Value}
    (h : listItems op items = .ok vals) (f : Value) : sizeOf vals < sizeOf [f, items] := by
  cases items <;> simp only [listItems, reduceCtorEq, Except.ok.injEq] at h
  · subst h
    simp
  · subst h
    simp
    omega

theorem endsAt_applyTo {env : FrameId} {vals : List Value}
    (ih : ∀ f vals', sizeOf vals' < sizeOf vals → EndsAt limit depth fun ev => ev.apply env f vals')
    (op : Text) : EndsAt limit depth fun ev => ev.applyTo env op (vals.map (.quote · true)) := by
  match vals with
  | [f, items] =>
    intro s hl hd
    cases hitems : listItems op items with
    | error e =>
      refine ⟨1, ?_⟩
      show Finished ((ofFuel 1).applyTo env op [.quote f true, .quote items true] s)
      rw [applyTo_marked, hitems]
      trivial
    | ok vals' =>
      have hends := ih f vals' (sizeOf_listItems_lt hitems f)
      obtain ⟨n, hn⟩ := hends s hl hd
      refine ⟨n + 1, ?_⟩
      have hcall : Routine True env fun ev => ev.apply env f vals' := .apply trivial f vals'
      show Finished ((ofFuel (n + 1)).applyTo env op [.quote f true, .quote items true] s)
      rw [applyTo_marked, hitems]
      show Finished ((ofFuel (n + 1)).apply env f vals' s)
      rw [hcall.stable (Nat.le_succ n) s hn]
      exact hn
  | [] => exact fun _ _ _ => ⟨0, trivial⟩
  | [_] => exact fun _ _ _ => ⟨0, trivial⟩
  | _ :: _ :: _ :: _ => exact fun _ _ _ => ⟨0, trivial⟩

/-- An application takes one level more than what it does. -/
theorem endsAt_apply {env : FrameId} {f : Value} {vals : List Value}
    (h : EndsAt limit depth fun ev => ev.applyValues env f vals) :
    EndsAt limit depth fun ev => ev.apply env f vals := by
  intro s hl hd
  obtain ⟨n, hn⟩ := h s hl hd
  exact ⟨n + 1, hn⟩

/-- `apply` passes on parts of its arguments only, so that a chain of applications ends. -/
theorem applicationsEnd (hlimit : 0 < limit) (hforms : ∀ d, depth ≤ d → FormsEnd limit d) :
    ApplicationsEnd limit depth := by
  intro env f vals
  induction hk : sizeOf vals using Nat.strongRecOn generalizing f vals with
  | ind k ih =>
    subst hk
    apply endsAt_apply
    by_cases hf : f = .native (.primitive .apply)
    · subst hf
      exact .observed _ _ (endsAt_applyTo (fun f vals' hlt => ih _ hlt f vals' rfl) _)
    · have hcall : Routine False env fun ev => ev.applyValues env f vals :=
        routine_applyValues f hf vals
      exact hcall.ends hlimit hforms fun h => h.elim

/-- An evaluation takes one level more than what it does. -/
theorem endsAt_eval {env : FrameId} {form : Value}
    (h : EndsAt limit depth fun ev => ev.evalForm env form) :
    EndsAt limit depth fun ev => ev.eval env form := by
  intro s hl hd
  obtain ⟨n, hn⟩ := h s hl hd
  exact ⟨n + 1, hn⟩

theorem endsAt_evalSequence {env : FrameId} : ∀ {body : List Value},
    (∀ form ∈ body, EndsAt limit depth fun ev => ev.eval env form) →
      EndsAt limit depth fun ev => ev.evalSequence env body
  | [], _ => fun _ _ _ => ⟨0, trivial⟩
  | [form], h => h form (List.mem_singleton_self form)
  | form :: next :: more, h => by
    have hform : Routine True env fun ev => ev.eval env form := .eval form
    have hmore : Routine True env fun ev => ev.evalSequence env (next :: more) :=
      routine_evalSequence (next :: more)
    refine .bind hform (fun _ => hmore) (h form List.mem_cons_self) fun _ => ?_
    exact endsAt_evalSequence fun f hf => h f (List.mem_cons_of_mem _ hf)

/-- **Forms end at one depth if they end at every greater one**, and at the limit in any case. -/
theorem formsEnd_of_deeper (hlimit : 0 < limit)
    (hdeeper : depth < limit → ∀ d, depth < d → FormsEnd limit d) : FormsEnd limit depth := by
  intro env form
  induction hk : sizeOf form using Nat.strongRecOn generalizing form with
  | ind k ih =>
    subst hk
    apply endsAt_eval
    match form with
    | .sequence body =>
      refine endsAt_evalSequence fun f hf => ih _ ?_ f rfl
      have := List.sizeOf_lt_of_mem hf
      simp
      omega
    | .list (head :: args) loc =>
      refine .nested loc hlimit fun hd => ?_
      have hforms (d : Nat) (h : depth + 1 ≤ d) : FormsEnd limit d := hdeeper hd d h
      have happly (d : Nat) (h : depth + 1 ≤ d) : ApplicationsEnd limit d :=
        applicationsEnd hlimit fun d' h' => hforms d' (Nat.le_trans h h')
      have hcall : Routine True env fun ev => ev.eval env head >>= fun f =>
          EvalM.located loc (ev.applyForms env loc f args) :=
        .bind (.eval head) fun f => .located loc (routine_applyForms loc f (fun _ => trivial) args)
      exact hcall.ends hlimit hforms fun _ => happly
    | .atom name loc =>
      refine fun s _ _ => ⟨0, ?_⟩
      simp only [evalForm_atom]
      show Finished (((s.store.get? env name).elim
        (raise ⟨loc, .undefinedVariable name⟩) pure : EvalM Value) s)
      cases s.store.get? env name <;> trivial
    | .list [] _ | .unit | .number _ | .string _ | .bool _ | .native _ | .closure _ _ _ _
    | .quote _ _ => exact fun _ _ _ => ⟨0, trivial⟩

/-- Under a limit forms end at every depth. -/
theorem formsEnd (hlimit : 0 < limit) : ∀ depth, FormsEnd limit depth := by
  have hcount : ∀ k depth, limit - depth = k → FormsEnd limit depth := by
    intro k
    induction k using Nat.strongRecOn with
    | ind k ih =>
      intro depth hk
      refine formsEnd_of_deeper hlimit fun hd d hlt => ?_
      exact ih (limit - d) (by omega) d rfl
  exact fun depth => hcount _ depth rfl

end

/-! ## 3. The result -/

/-- **Under a limit every evaluation ends**: from some fuel on the answer is always the same, and it
    is a value or a fault. -/
theorem eval_ends (s : Session) (hlimit : 0 < s.limit) (env : FrameId) (form : Value) :
    ∃ n, (∃ v s', ∀ n', n ≤ n' → (ofFuel n').eval env form s = .ok v s') ∨
      ∃ f s', ∀ n', n ≤ n' → (ofFuel n').eval env form s = .error (.fault f) s' := by
  obtain ⟨n, hn⟩ := formsEnd hlimit s.depth env form s rfl rfl
  have hform : Routine True env fun ev => ev.eval env form := .eval form
  have hstable (n' : Nat) (h : n ≤ n') := hform.stable h s hn
  refine ⟨n, ?_⟩
  cases hr : (ofFuel n).eval env form s with
  | ok v s' => exact .inl ⟨v, s', fun n' h => (hstable n' h).trans hr⟩
  | error e s' =>
    cases e with
    | fault f => exact .inr ⟨f, s', fun n' h => (hstable n' h).trans hr⟩
    | outOfFuel =>
      have hfinished : Finished ((ofFuel n).eval env form s) := hn
      rw [hr] at hfinished
      exact hfinished.elim

/-- A session with a limit in which the global function `loop` calls itself for ever. -/
def loopSession : Session :=
  Session.addGlobal { Session.fresh "0.0.0" with limit := 3 } "loop"
    (.closure "loop" (some []) [.list [.atom "loop" Loc.start] Loc.start] 0)

theorem eval_ends_loop : 0 < loopSession.limit ∧
    ∃ n, (∃ v s', ∀ n', n ≤ n' →
        (ofFuel n').eval 0 (.list [.atom "loop" Loc.start] Loc.start) loopSession = .ok v s') ∨
      ∃ f s', ∀ n', n ≤ n' → (ofFuel n').eval 0 (.list [.atom "loop" Loc.start] Loc.start)
        loopSession = .error (.fault f) s' :=
  ⟨by decide, eval_ends loopSession (by decide) 0 _⟩

end SmallLisp
