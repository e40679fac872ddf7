import SmallLisp.Proofs.Eval.Correspondence

/-!
# Evaluation keeps runs paired

If two runs start from sessions, frames and forms that correspond, they go the same way: this is
shown function by function for one level of evaluation (`Correspondence.Level`), and by induction on
the number of levels for the evaluator that does without the barred functions.

* `Correspondence.level`: every evaluator `barring c.barred n` keeps runs paired;
* `Correspondence.answersWithout`: hence two evaluations have answers that correspond, if the first
  of them ends and never comes to apply a barred function.
-/

namespace SmallLisp

open EvalM Evaluator

namespace Correspondence

/-- An evaluator under which runs stay paired. -/
structure Level (c : Correspondence) (ev : Evaluator) : Prop where
  eval {w : c.World} {i i' : FrameId} {form form' : SmallLisp.Value} : c.frame w i i' →
    c.Value w form form' → c.Paired w c.Value (ev.eval i form) (ev.eval i' form')
  apply {w : c.World} {i i' : FrameId} {f f' : SmallLisp.Value}
    {vals vals' : List SmallLisp.Value} : c.frame w i i' → c.Value w f f' → c.Values w vals vals' →
    c.Paired w c.Value (ev.apply i f vals) (ev.apply i' f' vals')

namespace Level

variable {c : Correspondence} {ev : Evaluator} (h : c.Level ev) {w : c.World} {env env' : FrameId}
  (henv : c.frame w env env') {args args' : List SmallLisp.Value} (hargs : c.Values w args args')

/-! ## 1. Forms in order -/

section Order

include h henv hargs

theorem evalAll : c.Paired w c.Values (ev.evalAll env args) (ev.evalAll env' args') := by
  induction args generalizing w args' with
  | nil =>
    cases hargs
    exact .pure .nil
  | cons form more ih =>
    obtain _ | ⟨hform, hmore⟩ := hargs
    refine (h.eval henv hform).bind fun {u v v'} hle hv => ?_
    refine (ih (c.frame_mono hle henv) (c.values_mono hle hmore)).bind fun hle' hvs => ?_
    exact .pure (.cons (c.value_mono hle' hv) hvs)

theorem evalSequence :
    c.Paired w c.Value (ev.evalSequence env args) (ev.evalSequence env' args') := by
  induction args generalizing w args' with
  | nil =>
    cases hargs
    exact .pure .unit
  | cons form more ih =>
    obtain _ | ⟨hform, hmore⟩ := hargs
    cases hmore with
    | nil => exact h.eval henv hform
    | cons hnext hrest =>
      refine (h.eval henv hform).bind fun hle _ => ?_
      exact ih (c.frame_mono hle henv) (c.values_mono hle (.cons hnext hrest))

theorem oneArg (op : Text) :
    c.Paired w c.Value (ev.oneArg env op args) (ev.oneArg env' op args') := by
  cases hargs with
  | nil => exact .arity op _ rfl
  | cons hform hmore =>
    cases hmore with
    | nil => exact h.eval henv hform
    | cons _ hrest => exact .arity op _ (by simp [hrest.length_eq])

theorem twoArgs (op : Text) :
    c.Paired w (fun u p p' => c.Value u p.1 p'.1 ∧ c.Value u p.2 p'.2) (ev.twoArgs env op args)
      (ev.twoArgs env' op args') := by
  cases hargs with
  | nil => exact .arity op _ rfl
  | cons ha hmore =>
    cases hmore with
    | nil => exact .arity op _ rfl
    | cons hb hrest =>
      cases hrest with
      | nil =>
        refine (h.eval henv ha).bind fun {u v v'} hle hv => ?_
        refine (h.eval (c.frame_mono hle henv) (c.value_mono hle hb)).bind fun hle' hv' => ?_
        exact .pure ⟨c.value_mono hle' hv, hv'⟩
      | cons _ hrest => exact .arity op _ (by simp [hrest.length_eq])

end Order

/-! ## 2. Special forms -/

include h henv in
theorem branch (op : Text) {test a test' a' : SmallLisp.Value}
    {other other' : EvalM SmallLisp.Value} (htest : c.Value w test test') (ha : c.Value w a a')
    (hother : ∀ {u}, c.le w u → c.Paired u c.Value other other') :
    c.Paired w c.Value
      (ev.eval env test >>= fun v =>
        match v with
        | .bool true => ev.eval env a
        | .bool false => other
        | v => raise (.mismatch op "boolean condition" v))
      (ev.eval env' test' >>= fun v =>
        match v with
        | .bool true => ev.eval env' a'
        | .bool false => other'
        | v => raise (.mismatch op "boolean condition" v)) := by
  refine (h.eval henv htest).bind fun hle hv => ?_
  have hlike := hv
  cases hv with
  | bool b =>
    cases b with
    | true => exact h.eval (c.frame_mono hle henv) (c.value_mono hle ha)
    | false => exact hother hle
  | _ => exact .mismatch op _ hlike

include h henv hargs in
theorem conditional (op : Text) :
    c.Paired w c.Value (ev.conditional env op args) (ev.conditional env' op args') := by
  cases hargs with
  | nil => exact .arity op _ rfl
  | cons htest hmore =>
    cases hmore with
    | nil => exact .arity op _ rfl
    | cons ha hmore =>
      cases hmore with
      | nil => exact h.branch henv op htest ha fun _ => .pure .unit
      | cons hb hmore =>
        cases hmore with
        | nil =>
          exact h.branch henv op htest ha fun hle =>
            h.eval (c.frame_mono hle henv) (c.value_mono hle hb)
        | cons _ hmore => exact .arity op _ (by simp [hmore.length_eq])

theorem checkUnbound_of_none {s : Session} {i : FrameId} {name : Text} (l : Loc)
    (h : s.store.local? i name = none) : Evaluator.checkUnbound i name l s = .ok () s := by
  show (if (s.store.local? i name).isSome then EvalM.raise ⟨l, .redefinition name⟩
    else pure () : EvalM Unit) s = _
  rw [h]
  rfl

theorem checkUnbound_of_some {s : Session} {i : FrameId} {name : Text} (l : Loc)
    (h : (s.store.local? i name).isSome) :
    Evaluator.checkUnbound i name l s = .error (.fault (.eval ⟨l, .redefinition name⟩)) s := by
  show (if (s.store.local? i name).isSome then EvalM.raise ⟨l, .redefinition name⟩
    else pure () : EvalM Unit) s = _
  rw [if_pos h]
  rfl

/-- What is done to a name that the frame does not bind yet. -/
theorem guarded {l l' : Loc} (henv : c.frame w env env') (name : Text) (hl : c.loc l l')
    {m m' : EvalM SmallLisp.Value}
    (hm : ∀ {s s'}, c.Sessions w s s' → s.store.local? env name = none →
      c.Agree c.Value w (m s) (m' s')) :
    c.Paired w c.Value (Evaluator.checkUnbound env name l >>= fun _ => m)
      (Evaluator.checkUnbound env' name l' >>= fun _ => m') := by
  intro s s' hs
  have hsame := c.isSome_local? name hs.store henv
  cases hlocal : s.store.local? env name with
  | none =>
    have hlocal' : s'.store.local? env' name = none := by simpa [hlocal] using hsame
    rw [bind_of_ok (checkUnbound_of_none l hlocal), bind_of_ok (checkUnbound_of_none l' hlocal')]
    exact hm hs hlocal
  | some v =>
    have hbound : (s.store.local? env name).isSome := by rw [hlocal]; rfl
    rw [bind_of_error (checkUnbound_of_some l hbound),
      bind_of_error (checkUnbound_of_some l' (hsame ▸ hbound))]
    exact .fault (c.le_refl w) (.eval ⟨hl, rfl⟩) hs

/-- Binding a name to the value of a form, which may itself bind names: the value is bound in the
    stores that the form left, but what the name was bound to counts before it. -/
theorem binding {m m' : EvalM SmallLisp.Value} (henv : c.frame w env env') (name : Text)
    (hm : c.Paired w c.Value m m') {s s' : Session} (hs : c.Sessions w s s')
    (hfree : c.barred (.primitive .assign) = true → s.store.local? env name = none) :
    c.Agree c.Value w
      ((m >>= fun v => bindName env name v >>= fun _ => pure v) s)
      ((m' >>= fun v => bindName env' name v >>= fun _ => pure v) s') := by
  have hagree := hm hs
  show c.Agree c.Value w (EStateM.bind m _ s) (EStateM.bind m' _ s')
  unfold EStateM.bind
  generalize m s = r at hagree ⊢
  generalize m' s' = r' at hagree ⊢
  cases hagree with
  | ok hle hv ht =>
    obtain ⟨z, hz, hframes, hstore⟩ := c.set name hs.store hle ht.store henv hv hfree
    refine .ok hz (hv.mono hframes) ?_
    exact { ht with store := hstore, root := hframes _ _ ht.root }
  | fault hle hf ht => exact .fault hle hf ht
  | outOfFuel => exact .outOfFuel

include h henv hargs in
theorem define (op : Text) :
    c.Paired w c.Value (ev.define env op args) (ev.define env' op args') := by
  cases hargs with
  | nil => exact .arity op _ rfl
  | cons htarget hmore =>
    cases hmore with
    | nil => exact .arity op _ rfl
    | cons hform hmore =>
      cases hmore with
      | cons _ hmore => exact .arity op _ (by simp [hmore.length_eq])
      | nil =>
        have hbare := htarget.bare
        simp only [Evaluator.define]
        generalize bare _ = v at hbare ⊢
        generalize bare _ = v' at hbare ⊢
        have hlike := hbare
        cases hbare with
        | atom name hl =>
          exact guarded henv name hl fun hs hfree =>
            binding henv name (h.eval henv hform) hs fun _ => hfree
        | _ => exact .mismatch op _ hlike

include h henv hargs in
theorem assign (hbar : c.barred (.primitive .assign) = false) (op : Text) :
    c.Paired w c.Value (ev.assign env op args) (ev.assign env' op args') := by
  cases hargs with
  | nil => exact .arity op _ rfl
  | cons htarget hmore =>
    cases hmore with
    | nil => exact .arity op _ rfl
    | cons hform hmore =>
      cases hmore with
      | cons _ hmore => exact .arity op _ (by simp [hmore.length_eq])
      | nil =>
        have hbare := htarget.bare
        simp only [Evaluator.assign]
        generalize bare _ = v at hbare ⊢
        generalize bare _ = v' at hbare ⊢
        have hlike := hbare
        cases hbare with
        | atom name hl =>
          intro s s' hs
          refine binding henv name (h.eval henv hform) hs fun hbarred => ?_
          rw [hbar] at hbarred
          cases hbarred
        | _ => exact .mismatch op _ hlike

include henv hargs in
theorem lambda (op : Text) :
    c.Paired w c.Value (Evaluator.lambda env op args) (Evaluator.lambda env' op args') := by
  cases hargs with
  | nil => exact .arity op _ rfl
  | cons hparams hbody =>
    have hnames := like_params (c.loc_refl _) op hparams.bare
    refine (Paired.ofExcept (R := fun _ => Eq) hnames).bind fun hle hnames => ?_
    cases hnames
    have hbodies := Value.AllLike.map (fun _ _ hv => hv.bare) hbody
    exact .pure (.closure _ _ (c.values_mono hle hbodies) (c.frame_mono hle henv))

include henv hargs in
theorem defun (op : Text) :
    c.Paired w c.Value (Evaluator.defun env op args) (Evaluator.defun env' op args') := by
  cases hargs with
  | nil => exact .arity op _ rfl
  | cons htarget hmore =>
    cases hmore with
    | nil => exact .arity op _ rfl
    | cons hparams hbody =>
      have hbare := htarget.bare
      simp only [Evaluator.defun]
      generalize bare _ = v at hbare ⊢
      generalize bare _ = v' at hbare ⊢
      have hlike := hbare
      cases hbare with
      | atom name hl =>
        refine guarded henv name hl fun {s s'} hs hfree => ?_
        have hnames := like_params (c.loc_refl _) op hparams.bare
        generalize params op _ = r at hnames ⊢
        generalize params op _ = r' at hnames ⊢
        cases hnames with
        | error he => exact Paired.raise he hs
        | ok hnames =>
          cases hnames
          rename_i names
          have hbodies := Value.AllLike.map (fun _ _ hv => hv.bare) hbody
          have hclosure : c.Paired w c.Value (pure _) (pure _) :=
            .pure (.closure name names hbodies henv)
          exact binding henv name hclosure hs fun _ => hfree
      | _ => exact .mismatch op _ hlike

include hargs in
theorem quote (op : Text) :
    c.Paired w c.Value (Evaluator.quote op args) (Evaluator.quote op args') := by
  cases hargs with
  | nil => exact .arity op _ rfl
  | cons hform hmore =>
    cases hmore with
    | nil => exact .pure hform.bare
    | cons _ hmore => exact .arity op _ (by simp [hmore.length_eq])

include h henv hargs

theorem connective (op : Text) (stop : Bool) :
    c.Paired w c.Value (ev.connective env op stop args) (ev.connective env' op stop args') := by
  induction args generalizing w args' with
  | nil =>
    cases hargs
    exact .pure (.bool _)
  | cons form more ih =>
    obtain _ | ⟨hform, hmore⟩ := hargs
    refine (h.eval henv hform).bind fun hle hv => ?_
    have hlike := hv
    cases hv with
    | bool b =>
      dsimp only
      split
      · exact .pure (.bool b)
      · exact ih (c.frame_mono hle henv) (c.values_mono hle hmore)
    | _ => exact .mismatch op _ hlike

theorem evalTwice (op : Text) :
    c.Paired w c.Value (ev.evalTwice env op args) (ev.evalTwice env' op args') := by
  cases hargs with
  | nil => exact .arity op _ rfl
  | cons hform hmore =>
    cases hmore with
    | cons _ hmore => exact .arity op _ (by simp [hmore.length_eq])
    | nil => exact (h.eval henv hform).bind fun hle hv => h.eval (c.frame_mono hle henv) hv

theorem read (op : Text) : c.Paired w c.Value (ev.read env op args) (ev.read env' op args') := by
  cases hargs with
  | nil => exact .arity op _ rfl
  | cons hform hmore =>
    cases hmore with
    | cons _ hmore => exact .arity op _ (by simp [hmore.length_eq])
    | nil =>
      refine (h.eval henv hform).bind fun _ hv => ?_
      have hlike := hv
      cases hv with
      | string src =>
        dsimp only
        split
        · exact .pure (Value.like_formOf c.loc_refl _)
        · exact .fail (.read _)
      | _ => exact .mismatch op _ hlike

theorem applyTo (op : Text) :
    c.Paired w c.Value (ev.applyTo env op args) (ev.applyTo env' op args') := by
  cases hargs with
  | nil => exact .arity op _ rfl
  | cons hf hmore =>
    cases hmore with
    | nil => exact .arity op _ rfl
    | cons hitems hmore =>
      cases hmore with
      | cons _ hmore => exact .arity op _ (by simp [hmore.length_eq])
      | nil =>
        refine (h.eval henv hf).bind fun hle hf => ?_
        have henv' := c.frame_mono hle henv
        refine (h.eval henv' (c.value_mono hle hitems)).bind fun hle' hlist => ?_
        have hvals := like_listItems (c.loc_refl _) op hlist
        refine (Paired.ofExcept (R := c.Values) hvals).bind fun hle'' hvals => ?_
        have hlater := c.le_trans hle' hle''
        exact h.apply (c.frame_mono hlater henv') (c.value_mono hlater hf) hvals

/-! ## 3. Functions on data -/

theorem evalNumbers (op : Text) :
    c.Paired w (fun _ => Eq) (ev.evalNumbers env op args) (ev.evalNumbers env' op args') := by
  induction args generalizing w args' with
  | nil =>
    cases hargs
    exact .pure rfl
  | cons form more ih =>
    obtain _ | ⟨hform, hmore⟩ := hargs
    refine (h.eval henv hform).bind fun hle hv => ?_
    have hlike := hv
    cases hv with
    | number x =>
      refine (ih (c.frame_mono hle henv) (c.values_mono hle hmore)).bind fun _ hxs => ?_
      exact .pure (by rw [hxs])
    | _ => exact .mismatch op _ hlike

omit h henv hargs in
theorem checkOperands (op : Arith) {n n' : Nat} (hn : n = n') :
    c.Paired w (fun _ => Eq) (Evaluator.checkOperands op n) (Evaluator.checkOperands op n') := by
  cases hn
  cases op with
  | add => exact .pure rfl
  | mul => exact .pure rfl
  | rem =>
    simp only [Evaluator.checkOperands]
    split
    · exact .pure rfl
    · exact .arity _ _ rfl
  | sub | div =>
    simp only [Evaluator.checkOperands]
    split
    · exact .arity _ _ rfl
    · exact .pure rfl

theorem arithmetic (op : Arith) :
    c.Paired w c.Value (ev.arithmetic env op args) (ev.arithmetic env' op args') := by
  refine (checkOperands op hargs.length_eq).bind fun hle _ => ?_
  have hnumbers := h.evalNumbers (c.frame_mono hle henv) (c.values_mono hle hargs) op.symbol
  refine hnumbers.bind fun _ hxs => ?_
  cases hxs
  exact .pure (.number _)

theorem comparison (cmp : Comparison) (op : Text) :
    c.Paired w c.Value (ev.comparison env cmp op args) (ev.comparison env' cmp op args') := by
  refine (h.twoArgs henv hargs op).bind fun {u p p'} _ hp => ?_
  have hequal := hp.1.equal hp.2
  have hordered : c.Paired u c.Value
      (EvalM.ofExcept (asNumber op p.1) >>= fun x => EvalM.ofExcept (asNumber op p.2) >>= fun y =>
        pure (.bool (ordered cmp x y)))
      (EvalM.ofExcept (asNumber op p'.1) >>= fun x => EvalM.ofExcept (asNumber op p'.2) >>= fun y =>
        pure (.bool (ordered cmp x y))) := by
    have hx := like_asNumber (c.loc_refl _) op hp.1
    refine (Paired.ofExcept (R := fun _ => Eq) hx).bind fun hle hx => ?_
    have hy := like_asNumber (c.loc_refl _) op (c.value_mono hle hp.2)
    refine (Paired.ofExcept (R := fun _ => Eq) hy).bind fun _ hy => ?_
    rw [hx, hy]
    exact .pure (.bool _)
  cases cmp with
  | eq =>
    dsimp only
    rw [hequal]
    exact .pure (.bool _)
  | ne =>
    dsimp only
    rw [hequal]
    exact .pure (.bool _)
  | _ => exact hordered

theorem negation (op : Text) :
    c.Paired w c.Value (ev.negation env op args) (ev.negation env' op args') := by
  refine (h.oneArg henv hargs op).bind fun _ hv => ?_
  have hlike := hv
  cases hv with
  | bool b => exact .pure (.bool _)
  | _ => exact .mismatch op _ hlike

theorem list : c.Paired w c.Value (ev.evalAll env args >>= fun vals => pure (newList vals))
    (ev.evalAll env' args' >>= fun vals => pure (newList vals)) :=
  (h.evalAll henv hargs).bind fun _ hvals => .pure (.list hvals (c.loc_refl _))

theorem cons (op : Text) : c.Paired w c.Value (ev.cons env op args) (ev.cons env' op args') := by
  refine (h.twoArgs henv hargs op).bind fun _ hp => ?_
  have hitems := like_listItems (c.loc_refl _) op hp.2
  refine (Paired.ofExcept (R := c.Values) hitems).bind fun hle hitems => ?_
  exact .pure (.list (.cons (c.value_mono hle hp.1) hitems) (c.loc_refl _))

theorem oneList (op : Text) :
    c.Paired w c.Values (ev.oneList env op args) (ev.oneList env' op args') :=
  (h.oneArg henv hargs op).bind fun _ hv => .ofExcept (like_listItems (c.loc_refl _) op hv)

theorem first (op : Text) :
    c.Paired w c.Value (ev.first env op args) (ev.first env' op args') := by
  refine (h.oneList henv hargs op).bind fun _ hitems => ?_
  cases hitems with
  | nil => exact .pure .unit
  | cons hv _ => exact .pure hv

theorem rest (op : Text) : c.Paired w c.Value (ev.rest env op args) (ev.rest env' op args') := by
  refine (h.oneList henv hargs op).bind fun _ hitems => ?_
  cases hitems with
  | nil => exact .pure (.list .nil (c.loc_refl _))
  | cons _ hvs => exact .pure (.list hvs (c.loc_refl _))

theorem length (op : Text) :
    c.Paired w c.Value (ev.length env op args) (ev.length env' op args') := by
  refine (h.oneArg henv hargs op).bind fun _ hv => ?_
  have hlike := hv
  cases hv with
  | string s => exact .pure (.number _)
  | list hitems _ =>
    dsimp only
    rw [hitems.length_eq]
    exact .pure (.number _)
  | unit => exact .pure (.number _)
  | _ => exact .mismatch op _ hlike

theorem isEmpty (op : Text) :
    c.Paired w c.Value (ev.isEmpty env op args) (ev.isEmpty env' op args') := by
  refine (h.oneList henv hargs op).bind fun _ hitems => ?_
  cases hitems <;> exact .pure (.bool _)

theorem str : c.Paired w c.Value (ev.str env args) (ev.str env' args') := by
  refine (h.evalAll henv hargs).bind fun _ hvals => ?_
  rw [hvals.displays]
  exact .pure (.string _)

theorem typeOf (op : Text) :
    c.Paired w c.Value (ev.typeOf env op args) (ev.typeOf env' op args') := by
  refine (h.oneArg henv hargs op).bind fun _ hv => ?_
  rw [hv.typeName]
  exact .pure (.string _)

theorem printing (ending : Text) :
    c.Paired w c.Value (ev.printing env ending args) (ev.printing env' ending args') := by
  refine (h.evalAll henv hargs).bind fun _ hvals => ?_
  rw [hvals.displays]
  exact (Paired.change fun ht => ht.tell (.put [.printed _])).bind fun _ _ => .pure .unit

/-! ## 4. Encodings -/

omit h henv hargs in
/-- What is done after something was logged, if the session is verbose. -/
theorem verbosely (out : List Output) {m : EvalM SmallLisp.Value}
    (hm : ∀ u, c.Paired u c.Value m m) :
    c.Paired w c.Value
      (get >>= fun s => if s.verbose = true then
        (modify fun s => { s with output := out ++ s.output }) >>= fun _ => m else m)
      (get >>= fun s => if s.verbose = true then
        (modify fun s => { s with output := out ++ s.output }) >>= fun _ => m else m) := by
  refine .look fun {s s'} hs => ?_
  rw [hs.verbose]
  split
  · exact (Paired.change fun ht => ht.tell (.put out)).bind fun _ _ => hm _
  · exact hm w

omit h henv hargs in
theorem valueOf (d? : Option Datum) :
    c.Paired w c.Value (Evaluator.valueOf d?) (Evaluator.valueOf d?) := by
  unfold Evaluator.valueOf
  simp only [foldl_log]
  cases hd : Value.ofDatum? d? with
  | ok v =>
    have hv : ∀ u, c.Value u v v := fun _ => Value.like_ofDatum? (c.loc_refl _) hd
    exact verbosely _ fun u => .pure (hv u)
  | error f => exact verbosely _ fun _ => .fail (Fault.Like.refl c.loc_refl f)

theorem interchange (i : Interchange) (op : Text) :
    c.Paired w c.Value (ev.interchange env i op args) (ev.interchange env' i op args') := by
  refine (h.oneArg henv hargs op).bind fun _ hv => ?_
  cases i with
  | json =>
    have htext := like_toJson (c.loc_refl _) hv
    refine (Paired.ofExcept (R := fun _ => Eq) htext).bind fun _ htext => ?_
    rw [htext]
    exact .pure (.string _)
  | msgpack =>
    have htext := like_toMessagePack (c.loc_refl _) hv
    refine (Paired.ofExcept (R := fun _ => Eq) htext).bind fun _ htext => ?_
    rw [htext]
    exact .pure (.string _)
  | unjson =>
    have hlike := hv
    cases hv with
    | string s => exact valueOf _
    | _ => exact .mismatch op _ hlike
  | unmsgpack =>
    have hlike := hv
    cases hv with
    | string s =>
      dsimp only
      split
      · exact valueOf _
      · exact .raise ⟨c.loc_refl _, rfl⟩
    | _ => exact .mismatch op _ hlike

theorem hash (op : Text) : c.Paired w c.Value (ev.hash env op args) (ev.hash env' op args') := by
  refine (h.oneArg henv hargs op).bind fun _ hv => ?_
  rw [hv.digest]
  exact .pure (.string _)

theorem dump (hbar : c.barred (.primitive .dump) = false) (op : Text) :
    c.Paired w c.Value (ev.dump env op args) (ev.dump env' op args') := by
  refine (h.oneArg henv hargs op).bind fun _ hv => .look fun {s s'} hs => ?_
  rw [c.dump hbar hs.printer hs.store hv]
  exact (Paired.change fun ht => ht.tell (.put [.printed _])).bind fun _ _ => .pure .unit

/-! ## 5. Native functions and closures -/

/-- **Every function of the language keeps runs paired**, unless it is barred. -/
theorem runPrimitive (p : Primitive) (hbar : c.barred (.primitive p) = false) :
    c.Paired w c.Value (ev.runPrimitive env p args) (ev.runPrimitive env' p args') := by
  cases p with
  | conditional => exact h.conditional henv hargs _
  | define => exact h.define henv hargs _
  | assign => exact h.assign henv hargs hbar _
  | lambda => exact lambda henv hargs _
  | defun => exact defun henv hargs _
  | sequence => exact h.evalSequence henv hargs
  | quote => exact quote hargs _
  | connective k =>
    cases k with
    | and => exact h.connective henv hargs _ false
    | or => exact h.connective henv hargs _ true
  | eval => exact h.evalTwice henv hargs _
  | read => exact h.read henv hargs _
  | apply => exact h.applyTo henv hargs _
  | arith op => exact h.arithmetic henv hargs op
  | compare k => exact h.comparison henv hargs k _
  | not => exact h.negation henv hargs _
  | list => exact h.list henv hargs
  | cons => exact h.cons henv hargs _
  | car => exact h.first henv hargs _
  | first => exact h.first henv hargs _
  | cdr => exact h.rest henv hargs _
  | rest => exact h.rest henv hargs _
  | len => exact h.length henv hargs _
  | isEmpty => exact h.isEmpty henv hargs _
  | str => exact h.str henv hargs
  | type => exact h.typeOf henv hargs _
  | print => exact h.printing henv hargs []
  | println => exact h.printing henv hargs _
  | interchange i => exact h.interchange henv hargs i _
  | hash => exact h.hash henv hargs _
  | dump => exact h.dump henv hargs hbar _

theorem runNative (f : Native) (hbar : c.barred f = false) :
    c.Paired w c.Value (ev.runNative env f args) (ev.runNative env' f args') := by
  cases f with
  | primitive p => exact h.runPrimitive henv hargs p hbar
  | probe name =>
    have hjoined := hargs.joined
    have hrecord : ∀ {s s'}, c.Sessions w s s' →
        c.Sessions w (s.record (.probe name s.depth (s.store.depth env) (Value.joined args)))
          (s'.record (.probe name s'.depth (s'.store.depth env') (Value.joined args'))) := by
      intro s s' hs
      rw [hs.depth, c.probe hbar hs.store henv, hjoined]
      exact hs.tell (.event _)
    refine (Paired.change hrecord).bind fun _ _ => ?_
    rw [hargs.length_eq]
    exact .pure (.number _)
  | surroundings name =>
    refine .look fun {s s'} hs => ?_
    rw [c.surroundings hbar hs.store henv]
    exact .pure (.string _)

omit henv hargs in
theorem callClosure {vals vals' body body' : List SmallLisp.Value} {home home' : FrameId}
    (name : Text) (params : List Text) (hbody : c.Values w body body')
    (hhome : c.frame w home home') (hvals : c.Values w vals vals') :
    c.Paired w c.Value (ev.callClosure name params body home vals)
      (ev.callClosure name params body' home' vals') := by
  have hrun : ∀ {u}, c.le w u → ∀ name : Text, c.Paired u c.Value
      (pushFrame home name (params.zip vals) >>= fun frame => ev.evalSequence frame body)
      (pushFrame home' name (params.zip vals') >>= fun frame => ev.evalSequence frame body') := by
    intro u hle name s s' hs
    obtain ⟨z, hz, hframe, hstore⟩ := c.enter name params hs.store (c.frame_mono hle hhome)
      (c.values_mono hle hvals)
    have hbody' := c.values_mono (c.le_trans hle hz) hbody
    refine (h.evalSequence hframe hbody' ?_).later hz
    exact { hs with store := hstore, root := c.frame_mono hz hs.root }
  unfold Evaluator.callClosure
  dsimp only
  rw [hvals.length_eq]
  split
  · exact (Paired.arity (R := fun _ => Eq) _ _ rfl).bind fun hle _ => hrun hle _
  · exact hrun (c.le_refl w) _

/-! ## 6. Application and forms -/

theorem applyForms {l l' : Loc} {f f' : SmallLisp.Value} (hl : c.loc l l') (hf : c.Value w f f') :
    c.Paired w c.Value
      (sparing c.barred f ((Wrapping.barring c.barred).applyForms ev env l f args))
      (sparing c.barred f' ((Wrapping.barring c.barred).applyForms ev env' l' f' args')) := by
  rw [applyForms_barring, applyForms_barring]
  have hlike := hf
  cases hf with
  | native n =>
    cases hbar : c.barred n with
    | true =>
      rw [sparing_barred hbar]
      exact .outOfFuel
    | false =>
      rw [sparing_native hbar, sparing_native hbar]
      exact .observed n.name hargs (h.runNative henv hargs n hbar)
  | closure name params hbody hhome =>
    refine (h.evalAll henv hargs).bind fun hle hvals => ?_
    have hbody' := c.values_mono hle hbody
    exact .observed name hvals
      (h.callClosure name _ hbody' (c.frame_mono hle hhome) hvals)
  | _ => exact .raise ⟨hl, by rw [hlike.describe]⟩

omit hargs in
theorem applyValues {f f' : SmallLisp.Value} {vals vals' : List SmallLisp.Value}
    (hf : c.Value w f f') (hvals : c.Values w vals vals') :
    c.Paired w c.Value ((Wrapping.barring c.barred).applyValues ev env f vals)
      ((Wrapping.barring c.barred).applyValues ev env' f' vals') := by
  rw [applyValues_barring, applyValues_barring]
  have hlike := hf
  cases hf with
  | native n =>
    cases hbar : c.barred n with
    | true =>
      rw [sparing_barred hbar]
      exact .outOfFuel
    | false =>
      rw [sparing_native hbar, sparing_native hbar]
      have hmarked : c.Values w (vals.map (.quote · true)) (vals'.map (.quote · true)) :=
        Value.AllLike.map (fun _ _ hv => .quote true hv) hvals
      exact .observed n.name hmarked (h.runNative henv hmarked n hbar)
  | closure name params hbody hhome =>
    exact .observed name hvals (h.callClosure name _ hbody hhome hvals)
  | _ => exact .raise ⟨c.loc_refl _, by rw [hlike.describe]⟩

omit h hargs in
variable (ev) in
theorem atom {l l' : Loc} (name : Text) (hl : c.loc l l') :
    c.Paired w c.Value (ev.evalForm env (.atom name l)) (ev.evalForm env' (.atom name l')) := by
  rw [evalForm_atom, evalForm_atom]
  refine .look fun {s s'} hs => ?_
  have hget := c.get? name hs.store henv
  generalize s.store.get? env name = v? at hget ⊢
  generalize s'.store.get? env' name = v'? at hget ⊢
  cases hget with
  | none => exact .raise ⟨hl, rfl⟩
  | some hv => exact .pure hv

omit hargs in
theorem evalForm {form form' : SmallLisp.Value} (hform : c.Value w form form') :
    c.Paired w c.Value ((Wrapping.barring c.barred).evalForm ev env form)
      ((Wrapping.barring c.barred).evalForm ev env' form') := by
  cases hform with
  | atom name hl => exact atom ev henv name hl
  | quote applied hv => exact .pure hv
  | sequence hbody => exact h.evalSequence henv hbody
  | list hitems hl =>
    cases hitems with
    | nil => exact .pure .unit
    | cons hhead hargs =>
      refine .nested ((Paired.checkDepth hl).bind fun hle _ => ?_)
      refine (h.eval (c.frame_mono hle henv) (c.value_mono hle hhead)).bind fun hle' hf => ?_
      have hlater := c.le_trans hle hle'
      exact .located hl (h.applyForms (c.frame_mono hlater henv) (c.values_mono hlater hargs) hl hf)
  | unit => exact .pure .unit
  | number x => exact .pure (.number x)
  | string t => exact .pure (.string t)
  | bool b => exact .pure (.bool b)
  | native f => exact .pure (.native f)
  | closure name params hbody hhome => exact .pure (.closure name params hbody hhome)

end Level

/-! ## 7. Every evaluation -/

/-- **Runs that correspond stay paired**, however deep their evaluations nest. -/
theorem level (c : Correspondence) (n : Nat) : c.Level (barring c.barred n) := by
  induction n with
  | zero => exact ⟨fun _ _ => .outOfFuel, fun _ _ _ => .outOfFuel⟩
  | succ n ih =>
    exact ⟨fun henv hform => ih.evalForm henv hform,
      fun henv hf hvals => ih.applyValues henv hf hvals⟩

/-- **If one of two evaluations that correspond ends without a barred function, so does the other,
    and their answers correspond.** -/
theorem answersWithout (c : Correspondence) {w : c.World} {s s' : Session} {i i' : FrameId}
    {form form' : SmallLisp.Value} {r : Answer SmallLisp.Value} (hs : c.Sessions w s s')
    (hi : c.frame w i i') (hform : c.Value w form form')
    (h : s.AnswersWithout c.barred i form r) :
    ∃ r', s'.AnswersWithout c.barred i' form' r' ∧ c.Agree c.Value w r r' := by
  obtain ⟨hr, n, hn⟩ := h
  have hagree := (c.level n).eval hi hform hs
  rw [hn] at hagree
  exact ⟨_, ⟨hagree.finished hr, n, rfl⟩, hagree⟩

end Correspondence

end SmallLisp
