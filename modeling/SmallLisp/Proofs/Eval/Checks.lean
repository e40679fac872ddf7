import SmallLisp.Proofs.Eval.Calls
import SmallLisp.Proofs.Eval.Wrapped

/-!
# Evaluation with checks

What holds whenever a function is applied, all through an evaluation, is found out by checks:
`checking check n` evaluates like `ofFuel n`, but runs a check before observers are told anything
and before a function runs. If the check does nothing in sessions of some kind, and the evaluation
agrees with the one without checks, then it never comes to a session of another kind; for nothing is
said about what the check does there.

* `EvalM.AgreeOn`: two actions agree in sessions of some kind, and stay in such sessions;
* `Session.Stable`: single steps lead out of no session of this kind;
* `Conduct.agreeOn`, `agree_applyForms`, `agree_applyValues`: then no application does;
* `agree_evalForm`: and no level of evaluation, if nested calls do not.
-/

namespace SmallLisp

open EvalM Evaluator

/-! ## 1. The evaluator -/

/-- An application, with a check before observers are told that it starts, before the function runs,
    and before observers are told that it succeeded. -/
def EvalM.checked (check : EvalM Unit) (name : Text) (args : List Value) (act : EvalM Value) :
    EvalM Value := do
  check
  modify (·.announce name args)
  check
  let v ← act
  check
  modify (·.conclude name v)
  pure v

theorem EvalM.checked_pure (name : Text) (args : List Value) (act : EvalM Value) :
    checked (pure ()) name args act = observed name args act := rfl

/-- A check is run around every application. -/
def Wrapping.checking (check : EvalM Unit) : Wrapping := { plain with run := checked check }

namespace Evaluator

/-- The evaluator with so many levels that runs a check around every application. -/
def checking (check : EvalM Unit) : Nat → Evaluator := (Wrapping.checking check).ofFuel

/-- With nothing to check it is evaluation. -/
theorem checking_pure (n : Nat) : checking (pure ()) n = ofFuel n := by
  have hplain : Wrapping.checking (pure ()) = .plain := by
    unfold Wrapping.checking
    rw [show checked (pure ()) = observed from funext fun _ => rfl]
    rfl
  unfold checking
  rw [hplain, Wrapping.ofFuel_plain]

/-- Runs source text in the root frame with this evaluator. -/
def runText (ev : Evaluator) (src : Text) : EvalM Value :=
  match parse src with
  | .ok n => do
    let s ← get
    ev.eval s.root (.ofNode n)
  | .error e => fail (.read e)

end Evaluator

/-! ## 2. Actions that agree -/

/-- The values in what was given satisfy the condition `P`, and the session that is left is of the
    kind `D`, also if nothing was given. -/
inductive Answer.Keeps (P : Value → Prop) (D : Session → Prop) {α : Type}
    (values : α → List Value) : Answer α → Prop where
  | ok {a : α} {t : Session} : (∀ v ∈ values a, P v) → D t → Keeps P D values (.ok a t)
  | error {e : Stop} {t : Session} : D t → Keeps P D values (.error e t)

/-- In a session of the kind `D` the actions have the same answer, and it is one that keeps to `P`
    and `D`. -/
def EvalM.AgreeOn (P : Value → Prop) (D : Session → Prop) {α : Type} (values : α → List Value)
    (m m' : EvalM α) : Prop :=
  ∀ s, D s → m s = m' s ∧ Answer.Keeps P D values (m' s)

/-- Single steps with values that satisfy `P` lead out of no session of the kind `D`. -/
structure Session.Stable (P : Value → Prop) (D : Session → Prop) : Prop where
  /-- Output, counts and journal are free to change. -/
  report {s t : Session} : s.Alike t → t.store = s.store → D s → D t
  bindName {s : Session} (env : FrameId) (name : Text) {v : Value} : P v → D s →
    D { s with store := s.store.set env name v }
  pushFrame {s : Session} (home : FrameId) (name : Text) {bindings : List (Text × Value)} :
    (∀ b ∈ bindings, P b.2) → D s →
    let (frame, store) := s.store.push home name
    D { s with store := bindings.foldl (fun st (n, v) => st.set frame n v) store }

namespace EvalM.AgreeOn

variable {P : Value → Prop} {D : Session → Prop} {α β : Type} {values : α → List Value}
  {values' : β → List Value}

theorem pure {a : α} (h : ∀ v ∈ values a, P v) :
    AgreeOn P D values (Pure.pure a) (Pure.pure a) := fun _ hs => ⟨rfl, .ok h hs⟩

theorem give {v : Value} (h : P v) :
    AgreeOn P D ([·]) (Pure.pure v) (Pure.pure v) := pure (List.forall_mem_singleton.mpr h)

theorem throw (e : Stop) :
    AgreeOn P D values (MonadExcept.throw e : EvalM α) (MonadExcept.throw e) :=
  fun _ hs => ⟨rfl, .error hs⟩

theorem raise (e : EvalError) : AgreeOn P D values (EvalM.raise e : EvalM α) (EvalM.raise e) :=
  throw _

theorem bind {m m' : EvalM α} {k k' : α → EvalM β} (hm : AgreeOn P D values m m')
    (hk : ∀ a, (∀ v ∈ values a, P v) → AgreeOn P D values' (k a) (k' a)) :
    AgreeOn P D values' (m >>= k) (m' >>= k') := by
  intro s hs
  obtain ⟨hsame, hkeeps⟩ := hm s hs
  cases hr : m' s with
  | ok a t =>
    rw [hr] at hsame hkeeps
    rw [bind_of_ok hsame, bind_of_ok hr]
    cases hkeeps with
    | ok ha ht => exact hk a ha t ht
  | error e t =>
    rw [hr] at hsame hkeeps
    rw [bind_of_error hsame, bind_of_error hr]
    cases hkeeps with
    | error ht => exact ⟨rfl, .error ht⟩

theorem look {k k' : Session → EvalM α} (hk : ∀ s, D s → AgreeOn P D values (k s) (k' s)) :
    AgreeOn P D values (get >>= k) (get >>= k') := fun s hs => hk s hs s hs

theorem change {f : Session → Session} (hf : ∀ s, D s → D (f s)) :
    AgreeOn P D noValues (modify f : EvalM Unit) (modify f) :=
  fun s hs => ⟨rfl, .ok (List.forall_mem_nil _) (hf s hs)⟩

/-- A check that does nothing in these sessions. -/
theorem check_left {check : EvalM Unit} (hcheck : ∀ s, D s → check s = .ok () s) {m m' : EvalM α}
    (h : AgreeOn P D values m m') : AgreeOn P D values (check >>= fun _ => m) m' := by
  intro s hs
  rw [bind_of_ok (hcheck s hs)]
  exact h s hs

theorem checked (hD : Session.Stable P D) {check : EvalM Unit}
    (hcheck : ∀ s, D s → check s = .ok () s) {m m' : EvalM Value} (h : AgreeOn P D ([·]) m m')
    (name : Text) (args : List Value) :
    AgreeOn P D ([·]) (EvalM.checked check name args m) (EvalM.observed name args m') := by
  have hannounce : AgreeOn P D noValues (modify (Session.announce · name args) : EvalM Unit) _ :=
    change fun s hs =>
      hD.report (progress_settings.announce 0 s name args) (s.store_announce name args) hs
  have hconclude (v : Value) :
      AgreeOn P D noValues (modify (Session.conclude · name v) : EvalM Unit) _ :=
    change fun s hs =>
      hD.report (progress_settings.conclude 0 s name v) (s.store_conclude name v) hs
  exact .check_left hcheck (hannounce.bind fun _ _ => .check_left hcheck (h.bind fun v hv =>
    .check_left hcheck ((hconclude v).bind fun _ _ => .pure hv)))

theorem observed (hD : Session.Stable P D) {m m' : EvalM Value} (h : AgreeOn P D ([·]) m m')
    (name : Text) (args : List Value) :
    AgreeOn P D ([·]) (EvalM.observed name args m) (EvalM.observed name args m') := by
  have hidle (s : Session) (_ : D s) : (Pure.pure () : EvalM Unit) s = .ok () s := rfl
  have hchecked := checked hD hidle h name args
  rwa [checked_pure] at hchecked

theorem located {m m' : EvalM α} (h : AgreeOn P D values m m') (loc : Loc) :
    AgreeOn P D values (EvalM.located loc m) (EvalM.located loc m') := by
  intro s hs
  obtain ⟨hsame, hkeeps⟩ := h s hs
  unfold EvalM.located
  rw [hsame]
  refine ⟨rfl, ?_⟩
  generalize m' s = r at hkeeps
  cases hkeeps with
  | ok ha ht => exact .ok ha ht
  | @error e t ht => cases e <;> exact .error ht

/-- An application that is nested may be in sessions of another kind. -/
theorem nested {D' : Session → Prop} (hin : ∀ s, D s → D' { s with depth := s.depth + 1 })
    (hout : ∀ t, D' t → D { t with depth := t.depth - 1 }) {m m' : EvalM α}
    (h : AgreeOn P D' values m m') : AgreeOn P D values (EvalM.nested m) (EvalM.nested m') := by
  intro s hs
  obtain ⟨hsame, hkeeps⟩ := h _ (hin s hs)
  unfold EvalM.nested
  rw [hsame]
  refine ⟨rfl, ?_⟩
  generalize m' _ = r at hkeeps
  cases hkeeps with
  | ok ha ht => exact .ok ha (hout _ ht)
  | error ht => exact .error (hout _ ht)

theorem checkDepth (loc : Loc) :
    AgreeOn P D noValues (EvalM.checkDepth loc) (EvalM.checkDepth loc) := by
  refine look fun s _ => ?_
  split
  · exact raise _
  · exact pure (List.forall_mem_nil _)

theorem atom (ev ev' : Evaluator) (env : FrameId) (name : Text) (loc : Loc)
    (h : ∀ s v, D s → s.store.get? env name = some v → P v) :
    AgreeOn P D ([·]) (ev.evalForm env (.atom name loc)) (ev'.evalForm env (.atom name loc)) := by
  rw [evalForm_atom, evalForm_atom]
  refine look fun s hs => ?_
  cases hv : s.store.get? env name with
  | none => exact raise _
  | some v => exact give (h s v hs hv)

end EvalM.AgreeOn

/-! ## 3. Evaluators that agree -/

/-- The evaluators agree on what satisfies the condition, in sessions of this kind. -/
structure Evaluator.AgreeOn (P : Value → Prop) (D : Session → Prop) (ev ev' : Evaluator) :
    Prop where
  eval (env : FrameId) {form : Value} : form.Argument P →
    EvalM.AgreeOn P D ([·]) (ev.eval env form) (ev'.eval env form)
  apply (env : FrameId) {f : Value} {vals : List Value} : P f → (∀ v ∈ vals, P v) →
    EvalM.AgreeOn P D ([·]) (ev.apply env f vals) (ev'.apply env f vals)

section Applications

variable {P : Value → Prop} {D : Session → Prop} (hD : Session.Stable P D) {ev ev' : Evaluator}

include hD

/-- **What functions do agrees if the evaluators do.** -/
theorem Conduct.agreeOn {applies : Prop}
    (heval : ∀ env {form : Value}, form.Argument P →
      EvalM.AgreeOn P D ([·]) (ev.eval env form) (ev'.eval env form))
    (happly : applies → ∀ env {f : Value} {vals : List Value}, P f → (∀ v ∈ vals, P v) →
      EvalM.AgreeOn P D ([·]) (ev.apply env f vals) (ev'.apply env f vals))
    {env : FrameId} {α : Type} {values : α → List Value} {m : Evaluator → EvalM α}
    (h : Conduct applies P env values m) : EvalM.AgreeOn P D values (m ev) (m ev') := by
  induction h with
  | pure h => exact .pure h
  | fail f => exact .throw _
  | bind _ _ ihm ihk => exact ihm.bind ihk
  | look k _ ihk => exact .look fun s _ => ihk s.view
  | bindName name hv => exact .change fun s => hD.bindName _ name hv
  | put out => exact .change fun s => hD.report ⟨rfl, rfl, rfl, rfl, rfl, rfl, rfl, rfl⟩ rfl
  | probe name args => exact .change fun s => hD.report ⟨rfl, rfl, rfl, rfl, rfl, rfl, rfl, rfl⟩ rfl
  | eval h => exact heval _ h
  | apply h hf hvals => exact happly h _ hf hvals
  | inside home name hbindings _ ihk =>
    have hpush : EvalM.AgreeOn P D noValues (pushFrame home name _) (pushFrame home name _) :=
      fun s hs => ⟨rfl, .ok (List.forall_mem_nil _) (hD.pushFrame home name hbindings hs)⟩
    exact hpush.bind fun frame _ => ihk frame
  | observed name args _ ih => exact EvalM.AgreeOn.observed hD ih name args

variable {check : EvalM Unit}

/-- One level of evaluation, given that calls agree. The parts of a sequence are evaluated where it
    stands, so nothing is asked of applications. -/
theorem agree_evalForm (hP : Value.Closed P) {env : FrameId}
    (hread : ∀ s name v, D s → s.store.get? env name = some v → P v)
    (heval : ∀ env {form : Value}, form.Argument P →
      EvalM.AgreeOn P D ([·]) (ev.eval env form) (ev'.eval env form))
    (hcall : ∀ {head : Value} {args : List Value} (loc : Loc), P head → (∀ a ∈ args, P a) →
      EvalM.AgreeOn P D ([·]) ((Wrapping.checking check).evalForm ev env (.list (head :: args) loc))
        (ev'.evalForm env (.list (head :: args) loc)))
    {form : Value} (h : P form) :
    EvalM.AgreeOn P D ([·]) ((Wrapping.checking check).evalForm ev env form)
      (ev'.evalForm env form) := by
  cases form with
  | list items loc =>
    cases items with
    | nil => exact .give hP.unit
    | cons head args =>
      obtain ⟨hhead, hargs⟩ := List.forall_mem_cons.mp (hP.items h)
      exact hcall loc hhead hargs
  | sequence body =>
    have hbody : Conduct False P env ([·]) fun ev => ev.evalSequence env body :=
      conduct_evalSequence hP fun form hform => .form (hP.forms h form hform)
    exact hbody.agreeOn hD heval False.elim
  | atom name loc => exact .atom ev ev' env name loc fun s v => hread s name v
  | quote v applied => exact .give (hP.content h)
  | _ => exact .give h

variable (hP : Value.Closed P) (hcheck : ∀ s, D s → check s = .ok () s) (hev : ev.AgreeOn P D ev')

include hP hcheck hev

theorem agree_runNative (env : FrameId) (n : Native) {args : List Value}
    (hargs : ∀ a ∈ args, a.Argument P) :
    EvalM.AgreeOn P D ([·]) (checked check n.name args (ev.runNative env n args))
      (observed n.name args (ev'.runNative env n args)) := by
  have hrun : Conduct True P env ([·]) fun ev => ev.runNative env n args :=
    conduct_runNative hP hargs n fun _ => trivial
  exact .checked hD hcheck (hrun.agreeOn hD hev.eval fun _ => hev.apply) n.name args

theorem agree_callClosure (name : Text) (params : List Text) (home : FrameId)
    {body vals : List Value} (hbody : ∀ form ∈ body, P form) (hvals : ∀ v ∈ vals, P v) :
    EvalM.AgreeOn P D ([·]) (checked check name vals (ev.callClosure name params body home vals))
      (observed name vals (ev'.callClosure name params body home vals)) := by
  have hrun : Conduct True P home ([·]) fun ev => ev.callClosure name params body home vals :=
    conduct_callClosure hP name params home hbody hvals
  exact .checked hD hcheck (hrun.agreeOn hD hev.eval fun _ => hev.apply) name vals

theorem agree_applyForms (env : FrameId) (loc : Loc) {f : Value} {args : List Value} (hf : P f)
    (hargs : ∀ a ∈ args, P a) :
    EvalM.AgreeOn P D ([·]) ((Wrapping.checking check).applyForms ev env loc f args)
      (ev'.applyForms env loc f args) := by
  have hforms : ∀ a ∈ args, a.Argument P := fun a ha => .form (hargs a ha)
  unfold Wrapping.applyForms applyForms
  cases f with
  | native n => exact agree_runNative hD hP hcheck hev env n hforms
  | closure name params body home =>
    have hall : Conduct True P env id fun ev => ev.evalAll env args := conduct_evalAll hforms
    exact (hall.agreeOn hD hev.eval fun _ => hev.apply).bind fun vals hvals =>
      agree_callClosure hD hP hcheck hev name _ home (hP.body hf) hvals
  | _ => exact .raise _

theorem agree_applyValues (env : FrameId) {f : Value} {vals : List Value} (hf : P f)
    (hvals : ∀ v ∈ vals, P v) :
    EvalM.AgreeOn P D ([·]) ((Wrapping.checking check).applyValues ev env f vals)
      (ev'.applyValues env f vals) := by
  unfold Wrapping.applyValues applyValues
  cases f with
  | native n =>
    refine agree_runNative hD hP hcheck hev env n fun a ha => ?_
    obtain ⟨v, hv, rfl⟩ := List.mem_map.mp ha
    exact .marked (hvals v hv)
  | closure name params body home =>
    exact agree_callClosure hD hP hcheck hev name _ home (hP.body hf) hvals
  | _ => exact .raise _

end Applications

end SmallLisp
