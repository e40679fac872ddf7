import SmallLisp.Proofs.Eval.Barring
import SmallLisp.Proofs.Eval.Indifference

/-!
# Calls through `apply`

A function that wants the values of its arguments can be called with forms or, through `apply`, with
a list of values. If the list is made with `list`, the two calls come to the same.

* `mapped_runPrimitive`: a native function that wants values evaluates its arguments from left to
  right, each once, and goes by the values;
* `equiv_applyCall`: the call through `apply` evaluates the arguments and applies the function to
  their values, as the direct call of a closure does.
-/

namespace SmallLisp

open EvalM Evaluator

/-! ## 1. Functions that want values -/

/-- The function of the language decides itself which of its arguments are evaluated, and when. -/
def Primitive.takesForms : Primitive → Bool
  | conditional | define | assign | lambda | defun | sequence | quote | connective _ => true
  | _ => false

/-- The value is a function that wants the values of its arguments: a closure, or a function of the
    language but for those that take forms. -/
def Value.TakesValues : Value → Prop
  | .closure _ _ _ _ => True
  | .native (.primitive p) => p.takesForms = false
  | _ => False

/-- Values as the arguments of a native function. -/
def evaluated (vals : List Value) : List Value := vals.map (.quote · true)

section Mapped

variable (ev : Evaluator) (env : FrameId)

/-- Whenever the action succeeds, so does the evaluation of the forms, and from there the action
    succeeds in the same way with the values. -/
def Mapped {α : Type} (m : List Value → EvalM α) : Prop :=
  ∀ ⦃forms : List Value⦄ ⦃s t : Session⦄ ⦃a : α⦄, m forms s = .ok a t →
    ∃ vals u, ev.evalAll env forms s = .ok vals u ∧ m (evaluated vals) u = .ok a t

variable {ev env}

theorem Mapped.bind {α β : Type} {m : List Value → EvalM α} (hm : Mapped ev env m)
    (k : α → EvalM β) : Mapped ev env fun forms => m forms >>= k := by
  intro forms s t b h
  obtain ⟨a, u, hfirst, hrest⟩ := ok_of_bind h
  obtain ⟨vals, w, hvals, hagain⟩ := hm hfirst
  exact ⟨vals, w, hvals, (bind_of_ok hagain).trans hrest⟩

theorem length_evalAll {forms vals : List Value} {s t : Session}
    (h : ev.evalAll env forms s = .ok vals t) : vals.length = forms.length := by
  induction forms generalizing s vals with
  | nil =>
    cases h
    rfl
  | cons form more ih =>
    obtain ⟨v, u, -, h⟩ := ok_of_bind h
    obtain ⟨vs, w, hmore, h⟩ := ok_of_bind h
    cases h
    exact congrArg (· + 1) (ih hmore)

theorem evalAll_cons {form v : Value} {more vals : List Value} {s u t : Session}
    (hv : ev.eval env form s = .ok v u) (hvals : ev.evalAll env more u = .ok vals t) :
    ev.evalAll env (form :: more) s = .ok (v :: vals) t := by
  show (ev.eval env form >>= fun v => ev.evalAll env more >>= fun vs => pure (v :: vs)) s = _
  rw [bind_of_ok hv, bind_of_ok hvals]
  rfl

variable (hquote : ∀ v, ev.eval env (.quote v true) = pure v)

include hquote

theorem mapped_evalAll : Mapped ev env (ev.evalAll env) := by
  have hagain (vals : List Value) (s : Session) :
      ev.evalAll env (evaluated vals) s = .ok vals s := by
    induction vals with
    | nil => rfl
    | cons v vals ih => exact evalAll_cons (by rw [hquote]; rfl) ih
  intro forms s t vals h
  exact ⟨vals, t, h, hagain vals t⟩

theorem mapped_oneArg (op : Text) : Mapped ev env (ev.oneArg env op) := by
  intro forms s t v h
  rcases forms with _ | ⟨form, _ | ⟨_, _⟩⟩
  · cases h
  · refine ⟨[v], t, evalAll_cons h rfl, ?_⟩
    show ev.eval env (.quote v true) t = _
    rw [hquote]
    rfl
  · cases h

theorem mapped_twoArgs (op : Text) : Mapped ev env (ev.twoArgs env op) := by
  intro forms s t ab h
  rcases forms with _ | ⟨form, _ | ⟨form', _ | ⟨_, _⟩⟩⟩
  · cases h
  · cases h
  · obtain ⟨a, u, ha, h⟩ := ok_of_bind h
    obtain ⟨b, w, hb, h⟩ := ok_of_bind h
    cases h
    refine ⟨[a, b], t, evalAll_cons ha (evalAll_cons hb rfl), ?_⟩
    show (ev.eval env (.quote a true) >>= fun a => ev.eval env (.quote b true) >>= fun b =>
      pure (a, b)) t = _
    rw [hquote, hquote, pure_bind, pure_bind]
    rfl
  · cases h

theorem mapped_evalNumbers (op : Text) : Mapped ev env (ev.evalNumbers env op) := by
  intro forms
  induction forms with
  | nil =>
    intro s t xs h
    cases h
    exact ⟨[], s, rfl, rfl⟩
  | cons form more ih =>
    intro s t xs h
    obtain ⟨v, u, hv, h⟩ := ok_of_bind h
    cases v with
    | number x =>
      obtain ⟨ys, w, hmore, h⟩ := ok_of_bind h
      cases h
      obtain ⟨vals, w, hvals, hagain⟩ := ih hmore
      refine ⟨.number x :: vals, w, evalAll_cons hv hvals, ?_⟩
      have hnumber : ev.eval env (.quote (.number x) true) w = .ok (.number x) w := by
        rw [hquote]
        rfl
      refine (bind_of_ok hnumber).trans ?_
      exact (bind_of_ok hagain).trans rfl
    | _ => cases h

omit hquote in
theorem checkOperands_of_ok {op : Arith} {n : Nat} {s t : Session}
    (h : checkOperands op n s = .ok () t) : checkOperands op n = pure () := by
  cases op with
  | add | mul => rfl
  | sub | div =>
    dsimp only [checkOperands] at h ⊢
    split at h
    · cases h
    · rename_i hn
      exact if_neg hn
  | rem =>
    dsimp only [checkOperands] at h ⊢
    split at h
    · rename_i hn
      exact if_pos hn
    · cases h

/-- The number of operands is looked at first, and it is the number of their values. -/
theorem mapped_arithmetic (op : Arith) : Mapped ev env (ev.arithmetic env op) := by
  intro forms s t v h
  obtain ⟨_, u, hcheck, h⟩ := ok_of_bind h
  have hpass := checkOperands_of_ok hcheck
  rw [hpass] at hcheck
  cases hcheck
  obtain ⟨vals, w, hvals, hagain⟩ :=
    (mapped_evalNumbers hquote op.symbol).bind (fun xs => pure (Value.number (foldNumbers op xs))) h
  have hlength : (evaluated vals).length = forms.length := by
    rw [evaluated, List.length_map, length_evalAll hvals]
  rw [← hlength] at hpass
  refine ⟨vals, w, hvals, ?_⟩
  unfold arithmetic
  rw [hpass, pure_bind]
  exact hagain

omit hquote in
theorem evalTwice_eq (op : Text) : ev.evalTwice env op =
    fun forms => ev.oneArg env op forms >>= fun v => ev.eval env v := by
  funext forms
  rcases forms with _ | ⟨_, _ | ⟨_, _⟩⟩ <;> rfl

omit hquote in
theorem applyTo_eq (op : Text) : ev.applyTo env op = fun forms =>
    ev.twoArgs env op forms >>= fun ab => ofExcept (listItems op ab.2) >>= ev.apply env ab.1 := by
  funext forms
  rcases forms with _ | ⟨_, _ | ⟨_, _ | ⟨_, _⟩⟩⟩
  · rfl
  · rfl
  · simp only [applyTo, twoArgs, bind_assoc, pure_bind]
  · rfl

theorem mapped_read (op : Text) : Mapped ev env (ev.read env op) := by
  intro forms s t v h
  rcases forms with _ | ⟨form, _ | ⟨_, _⟩⟩
  · cases h
  · obtain ⟨src, u, hsrc, h⟩ := ok_of_bind h
    refine ⟨[src], u, evalAll_cons hsrc rfl, ?_⟩
    show (ev.eval env (.quote src true) >>= _) u = _
    rw [hquote, pure_bind]
    exact h
  · cases h

/-- **A native function that wants values** evaluates its arguments from left to right, each once,
    and goes by their values: where it succeeds with forms, it succeeds in the same way with the
    values. -/
theorem mapped_runPrimitive {p : Primitive} (hp : p.takesForms = false) :
    Mapped ev env (ev.runPrimitive env p) := by
  cases p with
  | conditional | define | assign | lambda | defun | sequence | quote | connective => cases hp
  | eval =>
    have heval := (mapped_oneArg hquote "eval").bind fun v => ev.eval env v
    rwa [← evalTwice_eq] at heval
  | read => exact mapped_read hquote _
  | apply =>
    have happly := (mapped_twoArgs hquote "apply").bind fun ab =>
      ofExcept (listItems "apply" ab.2) >>= ev.apply env ab.1
    rwa [← applyTo_eq] at happly
  | arith op => exact mapped_arithmetic hquote op
  | compare c => exact (mapped_twoArgs hquote _).bind _
  | not => exact (mapped_oneArg hquote _).bind _
  | list => exact (mapped_evalAll hquote).bind _
  | cons => exact (mapped_twoArgs hquote _).bind _
  | car | first => exact ((mapped_oneArg hquote _).bind _).bind _
  | cdr | rest => exact ((mapped_oneArg hquote _).bind _).bind _
  | len => exact (mapped_oneArg hquote _).bind _
  | isEmpty => exact ((mapped_oneArg hquote _).bind _).bind _
  | str => exact (mapped_evalAll hquote).bind _
  | type => exact (mapped_oneArg hquote _).bind _
  | print | println => exact (mapped_evalAll hquote).bind _
  | interchange i => exact (mapped_oneArg hquote _).bind _
  | hash => exact (mapped_oneArg hquote _).bind _
  | dump => exact (mapped_oneArg hquote _).bind _

end Mapped

/-! ## 2. Calls without a limit -/

/-- Evaluates arguments from left to right and applies a function to their values. -/
def Evaluator.applyEvaluated (ev : Evaluator) (env : FrameId) (f : Value) (args : List Value) :
    EvalM Value := do
  let vals ← ev.evalAll env args
  ev.applyValues env f vals

section Calls

variable {env : FrameId} {head f : Value} {s t : Session}

/-- The call `(apply head (list args …))`, read at some places. -/
def applyCall (l₁ l₂ l₃ l₄ : Loc) (head : Value) (args : List Value) : Value :=
  .list [.atom "apply" l₁, head, .list (.atom "list" l₂ :: args) l₃] l₄

/-- **The call through `apply`** evaluates the arguments from left to right and applies the function
    to their values. -/
theorem equiv_applyCall (hst : s.Equiv t)
    (happly : t.store.get? env "apply" = some (.native (.primitive .apply)))
    (hlist : t.store.get? env "list" = some (.native (.primitive .list)))
    (hhead : t.store.Denotes env head f) (n : Nat) (args : List Value) (l₁ l₂ l₃ l₄ : Loc) :
    Answer.Equiv Eq ((ofFuel (n + 1)).applyEvaluated env f args s)
      ((ofFuel (n + 4)).eval env (applyCall l₁ l₂ l₃ l₄ head args) t) := by
  unfold applyCall
  rw [eval_call (.inl hst.unlimited') (.atom happly)]
  refine .nested_right (.located_right l₄ (.observed_right _ _ ?_))
  -- from here on in the session in which `apply` runs, which has the same frames
  have hst' := (hst.withDepth (t.depth + 1)).announce (Native.primitive .apply).name
    [head, .list (.atom "list" l₂ :: args) l₃]
  rw [← hst.store, hst'.store] at hlist hhead
  generalize Session.announce _ _ _ = t' at hst' hlist hhead ⊢
  show Answer.Equiv Eq _ (((ofFuel (n + 3)).eval env head >>= fun f =>
    (ofFuel (n + 3)).eval env (.list (.atom "list" l₂ :: args) l₃) >>= fun items =>
      ofExcept (listItems "apply" items) >>= fun vals => (ofFuel (n + 3)).apply env f vals) t')
  rw [bind_of_ok (hhead.eval rfl (n + 2))]
  have hitems : Answer.Equiv (fun vals items => items = newList vals)
      ((ofFuel (n + 1)).evalAll env args s)
      ((ofFuel (n + 3)).eval env (.list (.atom "list" l₂ :: args) l₃) t') := by
    rw [eval_call (.inl hst'.unlimited') (.atom hlist)]
    refine .nested_right (.located_right l₃ (.observed_right _ _ ?_))
    have hargs : Routine True env fun ev => ev.evalAll env args := routine_evalAll args
    have hvals := hargs.equiv (Nat.le_succ (n + 1))
      ((hst'.withDepth (t'.depth + 1)).announce (Native.primitive .list).name args)
    exact hvals.map_right fun h => by rw [h]
  refine hitems.bind ?_
  rintro vals _ rfl u u' hu
  exact (routine_applyValues f (fun _ => trivial) vals).equiv (Nat.le_succ (n + 1)) hu

/-- A closure called with forms is applied to their values. -/
theorem equiv_call_of_closure {name : Text} {params : Option (List Text)} {body : List Value}
    {home : FrameId} (hlimit : s.limit = 0)
    (hhead : s.store.Denotes env head (.closure name params body home)) (n : Nat)
    (args : List Value) (loc : Loc) {r : Answer Value}
    (h : ∀ {u : Session}, u.Equiv s → Answer.Equiv Eq
      ((ofFuel (n + 1)).applyEvaluated env (.closure name params body home) args u) r) :
    Answer.Equiv Eq ((ofFuel (n + 2)).eval env (.list (head :: args) loc) s) r := by
  rw [eval_call (.inl hlimit) hhead]
  exact .nested_left (.located_left loc (h ((Session.Equiv.refl hlimit).withDepth _).symm))

/-- A native function that wants values and succeeds with forms succeeds with their values. -/
theorem equiv_call_of_native {p : Primitive} (hp : p.takesForms = false) (hlimit : s.limit = 0)
    (hhead : s.store.Denotes env head (.native (.primitive p))) {n : Nat} {args : List Value}
    {loc : Loc} {v : Value}
    (h : (ofFuel (n + 2)).eval env (.list (head :: args) loc) s = .ok v t) :
    ∃ u t', u.Equiv s ∧ t.Equiv t' ∧
      (ofFuel (n + 1)).applyEvaluated env (.native (.primitive p)) args u = .ok v t' := by
  let u : Session := Session.announce { s with depth := s.depth + 1 } (Native.primitive p).name args
  have hus : s.Equiv u := ((Session.Equiv.refl hlimit).withDepth _).announce _ _
  have hu : u.Equiv u := .refl hus.unlimited'
  -- the call is the function run on the forms, but for the bookkeeping
  have hcall : Answer.Equiv Eq (.ok v t) ((ofFuel (n + 1)).runPrimitive env p args u) := by
    have hforms : Routine True env fun ev => ev.runPrimitive env p args :=
      routine_runPrimitive p (fun _ => trivial) args
    rw [← h, eval_call (.inl hlimit) hhead]
    exact .nested_left (.located_left loc (.observed_left _ _ (hforms.equiv (Nat.le_refl _) hu)))
  obtain ⟨t₁, hrun, ht₁⟩ := hcall.of_ok
  obtain ⟨vals, w, hvals, hagain⟩ := mapped_runPrimitive (fun _ => rfl) hp hrun
  -- and the function run on the values, but for the bookkeeping, is its application to them
  have hw : w.Equiv w := by
    have hargs : Routine True env fun ev => ev.evalAll env args := routine_evalAll args
    have hself := hargs.equiv (Nat.le_refl (n + 1)) hu
    rw [hvals] at hself
    cases hself with
    | ok _ hw => exact hw
  have happlied : Answer.Equiv Eq (.ok v t₁)
      ((ofFuel (n + 1)).applyValues env (.native (.primitive p)) vals w) := by
    have hforms : Routine True env fun ev => ev.runPrimitive env p (evaluated vals) :=
      routine_runPrimitive p (fun _ => trivial) _
    rw [← hagain]
    exact .observed_right _ _ (hforms.equiv (Nat.le_refl _) (hw.announce _ _))
  obtain ⟨t₂, hvalues, ht₂⟩ := happlied.of_ok
  exact ⟨u, t₂, hus.symm, ht₁.trans ht₂, (bind_of_ok hvals).trans hvalues⟩

end Calls

/-! ## 3. The result -/

/-- **A call through `apply` agrees with the direct call.** In a session without a limit in which
    `apply` and `list` are what they are at first, let a head stand for a closure or for a function
    of the language that wants values. If the direct call succeeds, so does the call through
    `apply`, with the same value, the same printed text and the same frames. If the function is a
    closure and the direct call fails, the call through `apply` fails with the same fault but for
    its place, after the same printed text and with the same frames. -/
theorem apply_as_call {s : Session} {env : FrameId} {head f : Value} (args : List Value)
    (l l₁ l₂ l₃ l₄ : Loc) (hlimit : s.limit = 0)
    (happly : s.store.get? env "apply" = some (.native (.primitive .apply)))
    (hlist : s.store.get? env "list" = some (.native (.primitive .list)))
    (hhead : s.store.Denotes env head f) (hf : f.TakesValues) :
    (∀ {v : Value} {t : Session}, s.Answers env (.list (head :: args) l) (.ok v t) →
      ∃ t', s.Answers env (applyCall l₁ l₂ l₃ l₄ head args) (.ok v t') ∧
        t'.printedText = t.printedText ∧ t'.store = t.store) ∧
    ∀ {name : Text} {params : Option (List Text)} {body : List Value} {home : FrameId},
      f = .closure name params body home →
      ∀ {e : Fault} {t : Session},
        s.Answers env (.list (head :: args) l) (.error (.fault e) t) →
        ∃ e' t', s.Answers env (applyCall l₁ l₂ l₃ l₄ head args) (.error (.fault e') t') ∧
          e.Equiv e' ∧ t'.printedText = t.printedText ∧ t'.store = t.store := by
  have hthrough (n : Nat) {u : Session} (hu : u.Equiv s) :=
    equiv_applyCall hu happly hlist hhead n args l₁ l₂ l₃ l₄
  refine ⟨fun {v t} h => ?_, ?_⟩
  · obtain ⟨-, n, hn⟩ := h
    have hdirect := hn (n + 2) (by omega)
    have hagree : ∃ t', (ofFuel (n + 4)).eval env (applyCall l₁ l₂ l₃ l₄ head args) s = .ok v t' ∧
        t.Equiv t' := by
      cases f with
      | closure name params body home =>
        have hcall := equiv_call_of_closure hlimit hhead n args l (hthrough n)
        rw [hdirect] at hcall
        exact hcall.of_ok
      | native g =>
        cases g with
        | primitive p =>
          obtain ⟨u, t₁, hu, ht, hvalues⟩ := equiv_call_of_native hf hlimit hhead hdirect
          have hcall := hthrough n hu
          rw [hvalues] at hcall
          obtain ⟨t', ht', hequiv⟩ := hcall.of_ok
          exact ⟨t', ht', ht.trans hequiv⟩
        | _ => exact hf.elim
      | _ => exact hf.elim
    obtain ⟨t', ht', hequiv⟩ := hagree
    exact ⟨t', answers_of_fuel ht' trivial, hequiv.printed.symm, hequiv.store.symm⟩
  · rintro name params body home rfl e t ⟨-, n, hn⟩
    have hcall := equiv_call_of_closure hlimit hhead n args l (hthrough n)
    rw [hn (n + 2) (by omega)] at hcall
    generalize hr : (ofFuel (n + 4)).eval env (applyCall l₁ l₂ l₃ l₄ head args) s = r at hcall
    cases hcall with
    | fault he hequiv =>
      exact ⟨_, _, answers_of_fuel hr trivial, he, hequiv.printed.symm, hequiv.store.symm⟩

/-- Prints `x` and then takes it for a list. -/
def grumbleBody : List Value :=
  [.list [.atom "print" Loc.start, .atom "x" Loc.start] Loc.start,
    .list [.atom "car" Loc.start, .atom "x" Loc.start] Loc.start]

/-- A session without a limit and with a function `grumble` that does so. -/
def grumbleSession : Session :=
  ((Session.fresh "0.0.0").withLimit 0).addGlobal "grumble"
    (.closure "grumble" (some ["x"]) grumbleBody 0)

/-- The argument `(str "hey" "you")`. -/
def heyForms : List Value := [.list [.atom "str" Loc.start, .string "hey", .string "you"] Loc.start]

/-- The direct call of a function with that argument. -/
def heyCall (name : Text) : Value := .list (.atom name Loc.start :: heyForms) Loc.start

/-- The call through `apply`. -/
def heyApply (name : Text) : Value :=
  applyCall Loc.start Loc.start Loc.start Loc.start (.atom name Loc.start) heyForms

/-- The answer to the direct call. -/
@[irreducible] def heyAnswer (name : Text) : Answer Value :=
  (ofFuel 20).eval 0 (heyCall name) grumbleSession

theorem answers_heyCall {name : Text} {r : Answer Value} (h : heyAnswer name = r)
    (hr : Finished r) : grumbleSession.Answers 0 (heyCall name) r := by
  unfold heyAnswer at h
  exact answers_of_fuel h hr

/-- The fault that an evaluation ended with. -/
def Answer.fault? {α : Type} : Answer α → Option Fault
  | .error (.fault f) _ => some f
  | _ => none

theorem Answer.exists_of_fault? {α : Type} {r : Answer α} {f : Fault} (h : r.fault? = some f) :
    ∃ s, r = .error (.fault f) s := by
  cases r with
  | ok a s => cases h
  | error e s =>
    cases e with
    | fault g =>
      cases h
      exact ⟨s, rfl⟩
    | outOfFuel => cases h

theorem heyAnswer_println :
    (heyAnswer "println").isOk = true ∧ (heyAnswer "println").session.printedText = "heyyou\n" := by
  decide +kernel

theorem heyAnswer_grumble :
    (heyAnswer "grumble").fault? =
      some (.eval ⟨Loc.start, .typeMismatch "car" "list" "string \"heyyou\""⟩) ∧
    (heyAnswer "grumble").session.printedText = "heyyou" := by decide +kernel

theorem apply_as_call_grumble :
    (∃ v t t', grumbleSession.Answers 0 (heyCall "println") (.ok v t) ∧
      grumbleSession.Answers 0 (heyApply "println") (.ok v t') ∧
      t'.printedText = "heyyou\n" ∧ t'.store = t.store) ∧
    ∃ e e' t t', grumbleSession.Answers 0 (heyCall "grumble") (.error (.fault e) t) ∧
      grumbleSession.Answers 0 (heyApply "grumble") (.error (.fault e') t') ∧
      e.Equiv e' ∧ t'.printedText = "heyyou" ∧ t'.store = t.store := by
  constructor
  · have hhead : grumbleSession.store.Denotes 0 (.atom "println" Loc.start)
        (.native (.primitive .println)) := .atom rfl
    obtain ⟨hok, hprinted⟩ := heyAnswer_println
    obtain ⟨v, t, hv⟩ := Answer.exists_of_isOk hok
    have hdirect := answers_heyCall hv trivial
    obtain ⟨t', hthrough, hsame, hstore⟩ :=
      (apply_as_call heyForms Loc.start Loc.start Loc.start Loc.start Loc.start rfl rfl rfl hhead
        rfl).1 hdirect
    rw [hv] at hprinted
    exact ⟨v, t, t', hdirect, hthrough, hsame.trans hprinted, hstore⟩
  · have hhead : grumbleSession.store.Denotes 0 (.atom "grumble" Loc.start)
        (.closure "grumble" (some ["x"]) grumbleBody 0) := .atom rfl
    obtain ⟨hfault, hprinted⟩ := heyAnswer_grumble
    obtain ⟨t, ht⟩ := Answer.exists_of_fault? hfault
    have hdirect := answers_heyCall ht trivial
    obtain ⟨e', t', hthrough, hlike, hsame, hstore⟩ :=
      (apply_as_call heyForms Loc.start Loc.start Loc.start Loc.start Loc.start rfl rfl rfl hhead
        trivial).2 rfl hdirect
    rw [ht] at hprinted
    exact ⟨_, e', t, t', hdirect, hthrough, hlike, hsame.trans hprinted, hstore⟩

end SmallLisp
