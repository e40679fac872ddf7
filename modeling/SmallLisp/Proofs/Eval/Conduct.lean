import SmallLisp.Eval.Run

/-!
# What functions do with values

A function gets values as its arguments and from the evaluator, puts others together from them, and
hands values on: to the evaluator, to the frame it runs in, to its caller. `Conduct` lists the steps
of which an application is made, under a condition on every value that changes hands. The condition
is a parameter, and has to be one that evaluation does not lead out of (`Value.Closed`).

* `conduct_runPrimitive`: every function of the language is made of these steps, and only `apply`
  applies a function to values;
* `conduct_applyForms`, `conduct_applyValues`: so is the application of any function.

What is to be shown of applications is shown of the steps.
-/

namespace SmallLisp

open EvalM Evaluator

/-! ## 1. Conditions on values -/

/-- What evaluation puts together from values that satisfy the condition, what it takes out of such
    values, and what it reads, satisfies it again. -/
structure Value.Closed (P : Value → Prop) : Prop where
  unit : P .unit
  number (x : Float) : P (.number x)
  string (t : Text) : P (.string t)
  bool (b : Bool) : P (.bool b)
  list {items : List Value} : (∀ v ∈ items, P v) → P (newList items)
  items {items : List Value} {l : Loc} : P (.list items l) → ∀ v ∈ items, P v
  closure (name : Text) (params : Option (List Text)) {body : List Value} (env : FrameId) :
    (∀ v ∈ body, P v) → P (.closure name params body env)
  body {name : Text} {params : Option (List Text)} {body : List Value} {env : FrameId} :
    P (.closure name params body env) → ∀ v ∈ body, P v
  forms {body : List Value} : P (.sequence body) → ∀ v ∈ body, P v
  content {v : Value} {applied : Bool} : P (.quote v applied) → P v
  node (n : Node) : P (.ofNode n)
  datum {d : Datum} {v : Value} : d.toValue = .ok v → P v

theorem Value.closed_true : Value.Closed fun _ => True := by
  constructor <;> intros <;> trivial

/-- An argument of a native function: a value that satisfies the condition, or one that `apply` has
    marked. -/
inductive Value.Argument (P : Value → Prop) : Value → Prop where
  | form {v : Value} : P v → Argument P v
  | marked {v : Value} : P v → Argument P (.quote v true)

section Values

variable {P : Value → Prop} (hP : Value.Closed P)

include hP

theorem Value.Argument.bare {v : Value} (h : Argument P v) : P (bare v) := by
  cases h with
  | form h =>
    unfold SmallLisp.bare
    split
    · exact hP.content h
    · exact h
  | marked h => exact h

theorem Value.Closed.map_bare {args : List Value} (h : ∀ a ∈ args, Argument P a) :
    ∀ v ∈ args.map SmallLisp.bare, P v := by
  intro v hv
  obtain ⟨a, ha, rfl⟩ := List.mem_map.mp hv
  exact (h a ha).bare hP

theorem Value.Closed.listItems {op : Text} {v : Value} {items : List Value} (h : P v)
    (hitems : listItems op v = .ok items) : ∀ w ∈ items, P w := by
  unfold SmallLisp.listItems at hitems
  split at hitems
  · cases hitems
    exact hP.items h
  · cases hitems
    simp
  · cases hitems

theorem Value.Closed.formOf (ns : List Node) : P (formOf ns) := by
  unfold Evaluator.formOf
  split
  · exact hP.unit
  · exact hP.node _
  · exact hP.node _

theorem Value.Closed.ofDatum? {d? : Option Datum} {v : Value} (h : Value.ofDatum? d? = .ok v) :
    P v := by
  unfold Value.ofDatum? at h
  split at h
  · cases h
  · split at h
    · rename_i hv
      cases h
      exact hP.datum hv
    · cases h

end Values

/-! ## 2. Steps -/

/-- What is given has no values in it. -/
def noValues {α : Type} : α → List Value := fun _ => []

/-- What a function can see of a session: its frames, whether it is verbose, and how dumps show
    functions. -/
structure Session.View where
  store : Store
  verbose : Bool
  printer : Printer

/-- What a function sees of the session. -/
abbrev Session.view (s : Session) : View := ⟨s.store, s.verbose, s.printer⟩

/-- What an application in frame `env` can be made of. `values` lists the values in what an action
    gives, and all of them satisfy the condition `P`, as do those that are passed on. `applies` says
    whether functions may be applied to values. -/
inductive Conduct (applies : Prop) (P : Value → Prop) :
    FrameId → {α : Type} → (α → List Value) → (Evaluator → EvalM α) → Prop where
  | pure {env : FrameId} {α : Type} {values : α → List Value} {a : α} (h : ∀ v ∈ values a, P v) :
      Conduct applies P env values fun _ => pure a
  | fail {env : FrameId} {α : Type} {values : α → List Value} (f : Fault) :
      Conduct applies P env values fun _ => (EvalM.fail f : EvalM α)
  | bind {env : FrameId} {α β : Type} {values : α → List Value} {values' : β → List Value}
      {m : Evaluator → EvalM α} {k : α → Evaluator → EvalM β} (hm : Conduct applies P env values m)
      (hk : ∀ a, (∀ v ∈ values a, P v) → Conduct applies P env values' (k a)) :
      Conduct applies P env values' fun ev => m ev >>= fun a => k a ev
  /-- Looks at the session. -/
  | look {env : FrameId} {α : Type} {values : α → List Value}
      (k : Session.View → Evaluator → EvalM α)
      (hk : ∀ seen, Conduct applies P env values (k seen)) :
      Conduct applies P env values fun ev => get >>= fun s => k s.view ev
  | bindName {env : FrameId} (name : Text) {v : Value} (h : P v) :
      Conduct applies P env noValues fun _ => Evaluator.bindName env name v
  /-- Puts out some texts, given newest first. -/
  | put {env : FrameId} (out : List Output) :
      Conduct applies P env noValues fun _ => modify fun s => { s with output := out ++ s.output }
  | probe {env : FrameId} (name args : Text) :
      Conduct applies P env noValues fun _ =>
        modify fun s => s.record (.probe name s.depth (s.store.depth env) args)
  | eval {env : FrameId} {form : Value} (h : form.Argument P) :
      Conduct applies P env ([·]) fun ev => ev.eval env form
  | apply {env : FrameId} (h : applies) {f : Value} {vals : List Value} (hf : P f)
      (hvals : ∀ v ∈ vals, P v) : Conduct applies P env ([·]) fun ev => ev.apply env f vals
  /-- Goes on in a new frame inside frame `home`. -/
  | inside {env : FrameId} {α : Type} {values : α → List Value} (home : FrameId) (name : Text)
      {bindings : List (Text × Value)} (h : ∀ b ∈ bindings, P b.2)
      {k : FrameId → Evaluator → EvalM α} (hk : ∀ frame, Conduct applies P frame values (k frame)) :
      Conduct applies P env values fun ev =>
        pushFrame home name bindings >>= fun frame => k frame ev
  | observed {env : FrameId} (name : Text) (args : List Value) {m : Evaluator → EvalM Value}
      (hm : Conduct applies P env ([·]) m) :
      Conduct applies P env ([·]) fun ev => EvalM.observed name args (m ev)

section Parts

variable {applies : Prop} {P : Value → Prop} {env : FrameId}

theorem Conduct.give {v : Value} (h : P v) :
    Conduct applies P env ([·]) fun _ => Pure.pure v := .pure (by simpa using h)

/-- An action that gives one value, and what is done with that. -/
theorem Conduct.andThen {β : Type} {values : β → List Value} {m : Evaluator → EvalM Value}
    {k : Value → Evaluator → EvalM β} (hm : Conduct applies P env ([·]) m)
    (hk : ∀ v, P v → Conduct applies P env values (k v)) :
    Conduct applies P env values fun ev => m ev >>= fun v => k v ev :=
  .bind hm fun v hv => hk v (hv v (List.mem_singleton_self v))

theorem conduct_raise {α : Type} {values : α → List Value} (e : EvalError) :
    Conduct applies P env values fun _ => (raise e : EvalM α) := .fail _

theorem conduct_ofExcept {α : Type} {values : α → List Value} {r : Except EvalError α}
    (h : ∀ a, r = .ok a → ∀ v ∈ values a, P v) :
    Conduct applies P env values fun _ => ofExcept r := by
  cases r with
  | ok a => exact .pure (h a rfl)
  | error e => exact conduct_raise e

theorem conduct_ofExcept_plain {α : Type} (r : Except EvalError α) :
    Conduct applies P env noValues fun _ => ofExcept r :=
  conduct_ofExcept fun _ _ => List.forall_mem_nil _

theorem conduct_print (t : Text) : Conduct applies P env noValues fun _ => modify (·.print t) :=
  .put [.printed t]

theorem conduct_checkUnbound (name : Text) (loc : Loc) :
    Conduct applies P env noValues fun _ => checkUnbound env name loc := by
  refine .look (fun seen _ => if (seen.store.local? env name).isSome
    then raise ⟨loc, .redefinition name⟩ else pure ()) fun seen => ?_
  split
  · exact conduct_raise _
  · exact .pure (List.forall_mem_nil _)

theorem conduct_checkOperands (op : Arith) (n : Nat) :
    Conduct applies P env noValues fun _ => checkOperands op n := by
  have hpass : Conduct applies P env noValues fun _ => (pure () : EvalM Unit) :=
    .pure (List.forall_mem_nil _)
  unfold checkOperands
  split
  · split
    · exact hpass
    · exact conduct_raise _
  · split
    · exact conduct_raise _
    · exact hpass
  · split
    · exact conduct_raise _
    · exact hpass
  · exact hpass
  · exact hpass

/-! ## 3. Arguments in order -/

theorem conduct_evalAll {forms : List Value} (h : ∀ form ∈ forms, form.Argument P) :
    Conduct applies P env id fun ev => ev.evalAll env forms := by
  induction forms with
  | nil => exact .pure (List.forall_mem_nil _)
  | cons form more ih =>
    obtain ⟨hform, hmore⟩ := List.forall_mem_cons.mp h
    exact .andThen (.eval hform) fun v hv => .bind (ih hmore) fun vs hvs =>
      .pure (List.forall_mem_cons.mpr ⟨hv, hvs⟩)

theorem conduct_oneArg (op : Text) {args : List Value} (h : ∀ a ∈ args, a.Argument P) :
    Conduct applies P env ([·]) fun ev => ev.oneArg env op args := by
  unfold oneArg
  split
  · exact .eval (h _ (by simp))
  · exact conduct_raise _

theorem conduct_twoArgs (op : Text) {args : List Value} (h : ∀ a ∈ args, a.Argument P) :
    Conduct applies P env (fun ab => [ab.1, ab.2]) fun ev => ev.twoArgs env op args := by
  unfold twoArgs
  split
  · exact .andThen (.eval (h _ (by simp))) fun a ha =>
      .andThen (.eval (h _ (by simp))) fun b hb => .pure (by simp [ha, hb])
  · exact conduct_raise _

theorem conduct_evalNumbers (op : Text) {args : List Value} (h : ∀ a ∈ args, a.Argument P) :
    Conduct applies P env noValues fun ev => ev.evalNumbers env op args := by
  induction args with
  | nil => exact .pure (List.forall_mem_nil _)
  | cons form more ih =>
    obtain ⟨hform, hmore⟩ := List.forall_mem_cons.mp h
    refine .andThen (.eval hform) fun v _ => ?_
    split
    · exact .bind (ih hmore) fun _ _ => .pure (List.forall_mem_nil _)
    · exact conduct_raise _

variable (hP : Value.Closed P) {args : List Value} (hargs : ∀ a ∈ args, a.Argument P)

include hP

theorem conduct_evalSequence : ∀ {forms : List Value}, (∀ form ∈ forms, form.Argument P) →
    Conduct applies P env ([·]) fun ev => ev.evalSequence env forms
  | [], _ => .give hP.unit
  | [form], h => .eval (h form (List.mem_singleton_self form))
  | form :: next :: more, h => by
    obtain ⟨hform, hmore⟩ := List.forall_mem_cons.mp h
    exact .andThen (.eval hform) fun _ _ => conduct_evalSequence hmore

theorem conduct_listItems (op : Text) {v : Value} (h : P v) :
    Conduct applies P env id fun _ => ofExcept (listItems op v) :=
  conduct_ofExcept fun _ => hP.listItems h

include hargs

theorem conduct_oneList (op : Text) :
    Conduct applies P env id fun ev => ev.oneList env op args :=
  .andThen (conduct_oneArg op hargs) fun _ hv => conduct_listItems hP op hv

/-! ## 4. Special forms -/

omit hP hargs in
theorem conduct_branch {c a : Value} (hc : c.Argument P) (ha : a.Argument P)
    (wrong : Value → EvalError) {other : Evaluator → EvalM Value}
    (hother : Conduct applies P env ([·]) other) :
    Conduct applies P env ([·]) fun ev => ev.eval env c >>= fun v =>
      match v with
      | .bool true => ev.eval env a
      | .bool false => other ev
      | v => raise (wrong v) := by
  refine .andThen (.eval hc) fun v _ => ?_
  split
  · exact .eval ha
  · exact hother
  · exact conduct_raise _

theorem conduct_conditional (op : Text) :
    Conduct applies P env ([·]) fun ev => ev.conditional env op args := by
  unfold conditional
  split
  · exact conduct_branch (hargs _ (by simp)) (hargs _ (by simp))
      (EvalError.mismatch op "boolean condition") (.give hP.unit)
  · exact conduct_branch (hargs _ (by simp)) (hargs _ (by simp))
      (EvalError.mismatch op "boolean condition") (.eval (hargs _ (by simp)))
  · exact conduct_raise _

omit hP in
theorem conduct_define (op : Text) :
    Conduct applies P env ([·]) fun ev => ev.define env op args := by
  unfold define
  split
  · split
    · rename_i name loc _
      exact .bind (conduct_checkUnbound name loc) fun _ _ =>
        .andThen (.eval (hargs _ (by simp))) fun v hv =>
          .bind (.bindName name hv) fun _ _ => .give hv
    · exact conduct_raise _
  · exact conduct_raise _

omit hP in
theorem conduct_assign (op : Text) :
    Conduct applies P env ([·]) fun ev => ev.assign env op args := by
  unfold assign
  split
  · split
    · rename_i name _ _
      exact .andThen (.eval (hargs _ (by simp))) fun v hv =>
        .bind (.bindName name hv) fun _ _ => .give hv
    · exact conduct_raise _
  · exact conduct_raise _

theorem conduct_lambda (op : Text) :
    Conduct applies P env ([·]) fun _ => lambda env op args := by
  unfold lambda
  split
  · exact conduct_raise _
  · rename_i ps body
    have hbody := hP.map_bare (List.forall_mem_cons.mp hargs).2
    exact .bind (conduct_ofExcept_plain _) fun names _ => .give (hP.closure [] names env hbody)

theorem conduct_defun (op : Text) :
    Conduct applies P env ([·]) fun _ => defun env op args := by
  unfold defun
  split
  · rename_i target ps body
    have hbody := hP.map_bare (List.forall_mem_cons.mp (List.forall_mem_cons.mp hargs).2).2
    split
    · rename_i name loc _
      exact .bind (conduct_checkUnbound name loc) fun _ _ =>
        .bind (conduct_ofExcept_plain _) fun names _ =>
          .bind (.bindName name (hP.closure name names env hbody)) fun _ _ =>
            .give (hP.closure name names env hbody)
    · exact conduct_raise _
  · exact conduct_raise _

theorem conduct_quote (op : Text) :
    Conduct applies P env ([·]) fun _ => Evaluator.quote op args := by
  unfold Evaluator.quote
  split
  · rename_i form
    exact .give ((hargs form (by simp)).bare hP)
  · exact conduct_raise _

theorem conduct_connective (op : Text) (stop : Bool) :
    Conduct applies P env ([·]) fun ev => ev.connective env op stop args := by
  induction args with
  | nil => exact .give (hP.bool _)
  | cons form more ih =>
    obtain ⟨hform, hmore⟩ := List.forall_mem_cons.mp hargs
    refine .andThen (.eval hform) fun v _ => ?_
    split
    · split
      · exact .give (hP.bool _)
      · exact ih hmore
    · exact conduct_raise _

omit hP in
theorem conduct_evalTwice (op : Text) :
    Conduct applies P env ([·]) fun ev => ev.evalTwice env op args := by
  unfold evalTwice
  split
  · exact .andThen (.eval (hargs _ (by simp))) fun _ hv => .eval (.form hv)
  · exact conduct_raise _

theorem conduct_read (op : Text) :
    Conduct applies P env ([·]) fun ev => ev.read env op args := by
  unfold Evaluator.read
  split
  · refine .andThen (.eval (hargs _ (by simp))) fun v _ => ?_
    split
    · split
      · exact .give (hP.formOf _)
      · exact .fail _
    · exact conduct_raise _
  · exact conduct_raise _

theorem conduct_applyTo (h : applies) (op : Text) :
    Conduct applies P env ([·]) fun ev => ev.applyTo env op args := by
  unfold applyTo
  split
  · refine .andThen (.eval (hargs _ (by simp))) fun f hf =>
      .andThen (.eval (hargs _ (by simp))) fun items hitems => ?_
    exact .bind (conduct_listItems hP op hitems) fun vals hvals => .apply h hf hvals
  · exact conduct_raise _

/-! ## 5. Functions on data -/

theorem conduct_arithmetic (op : Arith) :
    Conduct applies P env ([·]) fun ev => ev.arithmetic env op args :=
  .bind (conduct_checkOperands op args.length) fun _ _ =>
    .bind (conduct_evalNumbers _ hargs) fun _ _ => .give (hP.number _)

theorem conduct_comparison (c : Comparison) (op : Text) :
    Conduct applies P env ([·]) fun ev => ev.comparison env c op args := by
  refine .bind (conduct_twoArgs op hargs) fun ab _ => ?_
  dsimp only
  split
  · exact .give (hP.bool _)
  · exact .give (hP.bool _)
  · exact .bind (conduct_ofExcept_plain _) fun x _ =>
      .bind (conduct_ofExcept_plain _) fun y _ => .give (hP.bool _)

theorem conduct_negation (op : Text) :
    Conduct applies P env ([·]) fun ev => ev.negation env op args := by
  refine .andThen (conduct_oneArg op hargs) fun v _ => ?_
  split
  · exact .give (hP.bool _)
  · exact conduct_raise _

theorem conduct_list : Conduct applies P env ([·]) fun ev =>
    ev.evalAll env args >>= fun vals => pure (newList vals) :=
  .bind (conduct_evalAll hargs) fun _ hvals => .give (hP.list hvals)

theorem conduct_cons (op : Text) : Conduct applies P env ([·]) fun ev => ev.cons env op args := by
  refine .bind (conduct_twoArgs op hargs) fun ab hab => ?_
  have ha : P ab.1 := hab _ (by simp)
  have hb : P ab.2 := hab _ (by simp)
  exact .bind (conduct_listItems hP op hb) fun items hitems =>
    .give (hP.list (List.forall_mem_cons.mpr ⟨ha, hitems⟩))

theorem conduct_first (op : Text) :
    Conduct applies P env ([·]) fun ev => ev.first env op args := by
  refine .bind (conduct_oneList hP hargs op) fun items hitems => .give ?_
  cases items with
  | nil => exact hP.unit
  | cons v _ => exact hitems v List.mem_cons_self

theorem conduct_rest (op : Text) : Conduct applies P env ([·]) fun ev => ev.rest env op args :=
  .bind (conduct_oneList hP hargs op) fun _ hitems =>
    .give (hP.list fun v hv => hitems v (List.mem_of_mem_tail hv))

theorem conduct_length (op : Text) :
    Conduct applies P env ([·]) fun ev => ev.length env op args := by
  refine .andThen (conduct_oneArg op hargs) fun v _ => ?_
  split
  · exact .give (hP.number _)
  · exact .give (hP.number _)
  · exact .give (hP.number _)
  · exact conduct_raise _

theorem conduct_isEmpty (op : Text) :
    Conduct applies P env ([·]) fun ev => ev.isEmpty env op args :=
  .bind (conduct_oneList hP hargs op) fun _ _ => .give (hP.bool _)

theorem conduct_str : Conduct applies P env ([·]) fun ev => ev.str env args :=
  .bind (conduct_evalAll hargs) fun _ _ => .give (hP.string _)

theorem conduct_typeOf (op : Text) :
    Conduct applies P env ([·]) fun ev => ev.typeOf env op args :=
  .andThen (conduct_oneArg op hargs) fun _ _ => .give (hP.string _)

theorem conduct_printing (ending : Text) :
    Conduct applies P env ([·]) fun ev => ev.printing env ending args :=
  .bind (conduct_evalAll hargs) fun vals _ =>
    .bind (conduct_print (Text.join " " (Value.displays vals) ++ ending)) fun _ _ => .give hP.unit

/-! ## 6. Encodings -/

omit hP hargs in
/-- Lines logged one after the other are put out together. -/
theorem foldl_log (line : String → Text) (ts : List String) (s : Session) :
    ts.foldl (fun s t => s.log (line t)) s =
      { s with
        output := (ts.map fun t => Output.logged (line t ++ "\n")).reverse ++ s.output } := by
  induction ts generalizing s with
  | nil => rfl
  | cons t ts ih =>
    rw [List.foldl_cons, ih]
    simp [Session.log]

omit hargs in
theorem conduct_valueOf (d? : Option Datum) :
    Conduct applies P env ([·]) fun _ => valueOf d? := by
  unfold valueOf
  simp only [foldl_log]
  cases hd : Value.ofDatum? d? with
  | ok v =>
    have hv : P v := hP.ofDatum? hd
    refine .look (fun seen _ => if seen.verbose = true then _ else _) fun seen => ?_
    split
    · exact .bind (.put _) fun _ _ => .give hv
    · exact .give hv
  | error f =>
    refine .look (fun seen _ => if seen.verbose = true then _ else _) fun seen => ?_
    split
    · exact .bind (.put _) fun _ _ => .fail f
    · exact .fail f

theorem conduct_interchange (i : Interchange) (op : Text) :
    Conduct applies P env ([·]) fun ev => ev.interchange env i op args := by
  refine .andThen (conduct_oneArg op hargs) fun v _ => ?_
  cases i with
  | json => exact .bind (conduct_ofExcept_plain v.toJson) fun t _ => .give (hP.string _)
  | msgpack => exact .bind (conduct_ofExcept_plain v.toMessagePack) fun t _ => .give (hP.string _)
  | unjson =>
    dsimp only
    split
    · exact conduct_valueOf hP _
    · exact conduct_raise _
  | unmsgpack =>
    dsimp only
    split
    · split
      · exact conduct_valueOf hP _
      · exact conduct_raise _
    · exact conduct_raise _

theorem conduct_hash (op : Text) : Conduct applies P env ([·]) fun ev => ev.hash env op args :=
  .andThen (conduct_oneArg op hargs) fun _ _ => .give (hP.string _)

theorem conduct_dump (op : Text) : Conduct applies P env ([·]) fun ev => ev.dump env op args :=
  .andThen (conduct_oneArg op hargs) fun v _ =>
    .look (fun seen _ => do
        modify (·.print (v.dump (seen.printer seen.store)))
        pure Value.unit)
      fun _ => .bind (conduct_print _) fun _ _ => .give hP.unit

/-! ## 7. Native functions -/

/-- **Every function of the language is made of these steps, and only `apply` applies functions to
    values.** -/
theorem conduct_runPrimitive (p : Primitive) (h : p = .apply → applies) :
    Conduct applies P env ([·]) fun ev => ev.runPrimitive env p args := by
  cases p with
  | conditional => exact conduct_conditional hP hargs _
  | define => exact conduct_define hargs _
  | assign => exact conduct_assign hargs _
  | lambda => exact conduct_lambda hP hargs _
  | defun => exact conduct_defun hP hargs _
  | sequence => exact conduct_evalSequence hP hargs
  | quote => exact conduct_quote hP hargs _
  | connective c =>
    cases c with
    | and => exact conduct_connective hP hargs _ false
    | or => exact conduct_connective hP hargs _ true
  | eval => exact conduct_evalTwice hargs _
  | read => exact conduct_read hP hargs _
  | apply => exact conduct_applyTo hP hargs (h rfl) _
  | arith op => exact conduct_arithmetic hP hargs op
  | compare c => exact conduct_comparison hP hargs c _
  | not => exact conduct_negation hP hargs _
  | list => exact conduct_list hP hargs
  | cons => exact conduct_cons hP hargs _
  | car => exact conduct_first hP hargs _
  | first => exact conduct_first hP hargs _
  | cdr => exact conduct_rest hP hargs _
  | rest => exact conduct_rest hP hargs _
  | len => exact conduct_length hP hargs _
  | isEmpty => exact conduct_isEmpty hP hargs _
  | str => exact conduct_str hP hargs
  | type => exact conduct_typeOf hP hargs _
  | print => exact conduct_printing hP hargs []
  | println => exact conduct_printing hP hargs _
  | interchange i => exact conduct_interchange hP hargs i _
  | hash => exact conduct_hash hP hargs _
  | dump => exact conduct_dump hP hargs _

theorem conduct_runNative (f : Native) (h : f = .primitive .apply → applies) :
    Conduct applies P env ([·]) fun ev => ev.runNative env f args := by
  cases f with
  | primitive p => exact conduct_runPrimitive hP hargs p fun hp => h (by rw [hp])
  | probe name =>
    exact .bind (.probe name (Value.joined args)) fun _ _ => .give (hP.number _)
  | surroundings name =>
    exact .look (fun seen _ => pure (Value.string (seen.store.listing env name false))) fun _ =>
      .give (hP.string _)

/-! ## 8. Closures and application -/

omit hargs in
theorem conduct_callClosure (name : Text) (params : List Text) {body vals : List Value}
    (home : FrameId) (hbody : ∀ form ∈ body, P form) (hvals : ∀ v ∈ vals, P v) :
    Conduct applies P env ([·]) fun ev => ev.callClosure name params body home vals := by
  have run (name : Text) : Conduct applies P env ([·]) fun ev =>
      pushFrame home name (params.zip vals) >>= fun frame => ev.evalSequence frame body :=
    .inside home name (fun _ hb => hvals _ (List.of_mem_zip hb).2) fun _ =>
      conduct_evalSequence hP fun form hform => .form (hbody form hform)
  have wrong (e : EvalError) : Conduct applies P env noValues fun _ => (raise e : EvalM PUnit) :=
    conduct_raise e
  unfold callClosure
  dsimp only
  split
  · exact .bind (wrong _) fun _ _ => run _
  · exact run _

/-- **The application of a function to forms is made of these steps.** -/
theorem conduct_applyForms (loc : Loc) {f : Value} (hf : P f)
    (h : f = .native (.primitive .apply) → applies) :
    Conduct applies P env ([·]) fun ev => ev.applyForms env loc f args := by
  unfold applyForms
  split
  · rename_i n
    exact .observed n.name args (conduct_runNative hP hargs n fun hn => h (by rw [hn]))
  · rename_i name params body home
    exact .bind (conduct_evalAll hargs) fun vals hvals =>
      .observed name vals (conduct_callClosure hP name (params.getD []) home (hP.body hf) hvals)
  · exact conduct_raise _

omit hargs in
/-- **So is the application to values**, which native functions get under a mark. -/
theorem conduct_applyValues {f : Value} {vals : List Value} (hf : P f) (hvals : ∀ v ∈ vals, P v)
    (h : f = .native (.primitive .apply) → applies) :
    Conduct applies P env ([·]) fun ev => ev.applyValues env f vals := by
  unfold applyValues
  split
  · rename_i n
    refine .observed n.name _ (conduct_runNative hP (fun a ha => ?_) n fun hn => h (by rw [hn]))
    obtain ⟨v, hv, rfl⟩ := List.mem_map.mp ha
    exact .marked (hvals v hv)
  · rename_i name params body home
    exact .observed name vals
      (conduct_callClosure hP name (params.getD []) home (hP.body hf) hvals)
  · exact conduct_raise _

end Parts

end SmallLisp
