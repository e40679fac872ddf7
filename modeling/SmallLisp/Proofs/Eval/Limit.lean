import SmallLisp.Proofs.Eval.Termination

/-!
# What the limit on nesting decides

A session may limit how many applications are nested. The limit is looked at in one place, and what
that place raises is caught nowhere. So a limit can only stop an evaluation, and a larger one stops
it later or not at all (`limit_only_cuts`).

The comparison is between two runs of one action, the second in the same session but for the limit
(`Answer.Within`): either the first run was not stopped by its limit, and then the answers are the
same, or it was, and then what it put out is the beginning of what the second puts out. `Steady`
says this of an action; every step of an evaluation hands it on (`lasting_steady`).
-/

namespace SmallLisp

open EvalM Evaluator

/-! ## 1. Answers under another limit -/

/-- How an action ends, and the session that it leaves. -/
abbrev Answer (α : Type) := EStateM.Result Stop Session α

/-- The session with another limit. -/
def Session.withLimit (s : Session) (limit : Nat) : Session := { s with limit }

/-- Too many applications were nested. -/
def Stop.isLimit : Stop → Bool
  | .fault (.eval ⟨_, .depthExceeded _⟩) => true
  | _ => false

namespace Answer

variable {α : Type}

/-- The session that is left. -/
def session : Answer α → Session
  | .ok _ s => s
  | .error _ s => s

/-- The same end, and the same session but for the limit. -/
def withLimit (limit : Nat) : Answer α → Answer α
  | .ok a s => .ok a (s.withLimit limit)
  | .error e s => .error e (s.withLimit limit)

/-- The action ended because too many applications were nested. -/
def AtLimit : Answer α → Prop
  | .ok _ _ => False
  | .error e _ => e.isLimit = true

instance (r : Answer α) : Decidable r.AtLimit :=
  match r with
  | .ok _ _ => inferInstanceAs (Decidable False)
  | .error e _ => inferInstanceAs (Decidable (e.isLimit = true))

/-- `r'` is the answer under another limit to what is answered with `r`: the same, or, if `r` was
    stopped by its limit, one that has put out at least as much. -/
inductive Within (limit : Nat) : Answer α → Answer α → Prop where
  | same {r : Answer α} : ¬ r.AtLimit → Within limit r (r.withLimit limit)
  | cut {r r' : Answer α} : r.AtLimit → r.session.output <:+ r'.session.output → Within limit r r'

/-- Answers that are the same but for the limit are in order, whatever they are. -/
theorem within_withLimit (limit : Nat) (r : Answer α) : Within limit r (r.withLimit limit) := by
  by_cases h : r.AtLimit
  · refine .cut h ?_
    cases r <;> exact List.suffix_rfl
  · exact .same h

theorem finished_of_atLimit {r : Answer α} (h : r.AtLimit) : Finished r := by
  match r with
  | .ok _ _ => trivial
  | .error (.fault _) _ => trivial
  | .error .outOfFuel _ => cases h

theorem finished_withLimit {limit : Nat} {r : Answer α} (h : Finished r) :
    Finished (r.withLimit limit) := by
  cases r with
  | ok a s => trivial
  | error e s => cases e <;> exact h

end Answer

/-! ## 2. Steady actions -/

theorem bind_of_ok {α β : Type} {act : EvalM α} {k : α → EvalM β} {s t : Session} {a : α}
    (h : act s = .ok a t) : (act >>= k) s = k a t := by
  show EStateM.bind act k s = _
  unfold EStateM.bind
  rw [h]

theorem bind_of_error {α β : Type} {act : EvalM α} {k : α → EvalM β} {s t : Session} {e : Stop}
    (h : act s = .error e t) : (act >>= k) s = .error e t := by
  show EStateM.bind act k s = _
  unfold EStateM.bind
  rw [h]

theorem nested_of_ok {α : Type} {act : EvalM α} {s t : Session} {a : α}
    (h : act { s with depth := s.depth + 1 } = .ok a t) :
    nested act s = .ok a { t with depth := t.depth - 1 } := by
  unfold nested
  rw [h]

theorem nested_of_error {α : Type} {act : EvalM α} {s t : Session} {e : Stop}
    (h : act { s with depth := s.depth + 1 } = .error e t) :
    nested act s = .error e { t with depth := t.depth - 1 } := by
  unfold nested
  rw [h]

/-- What comes after an action puts its output on top. -/
theorem output_bind {α β : Type} (act : EvalM α) {k : α → EvalM β}
    (hk : ∀ a s, s.output <:+ ((k a).after s).output) (s : Session) :
    (act.after s).output <:+ ((act >>= k).after s).output := by
  cases hs : act s with
  | ok a t =>
    rw [after_bind_ok hs]
    unfold EvalM.after
    rw [hs]
    exact hk a t
  | error e t =>
    have hafter : act.after s = t := by
      unfold EvalM.after
      rw [hs]
    refine ⟨[], ?_⟩
    rw [List.nil_append, after_bind_error hs, hafter]

/-- An action that changes no setting, takes back no output, and answers under limit `m'` what it
    answers under limit `m`, up to the point where `m` stops it. -/
structure EvalM.Steady (m m' : Nat) {α : Type} (act : EvalM α) : Prop where
  alike (s : Session) : s.Alike (act.after s)
  grows (s : Session) : s.output <:+ (act.after s).output
  within (s : Session) : s.limit = m → Answer.Within m' (act s) (act (s.withLimit m'))

theorem isLimit_locate (f : Fault) (loc : Loc) :
    (Stop.fault (f.locate loc)).isLimit = (Stop.fault f).isLimit := by
  cases f with
  | eval e =>
    show (Stop.fault (.eval (e.locate loc))).isLimit = _
    unfold EvalError.locate
    obtain ⟨loc', cause⟩ := e
    split <;> cases cause <;> rfl
  | read e => rfl
  | malformed => rfl

theorem checkDepth_within (loc : Loc) {s : Session} (h : s.limit = 0 ∨ s.depth ≤ s.limit) :
    checkDepth loc s = .ok () s := by
  rcases h with h | h
  · show (if 0 < s.limit ∧ s.limit < s.depth then raise ⟨loc, .depthExceeded s.limit⟩
      else pure () : EvalM Unit) s = _
    rw [if_neg (by omega)]
    rfl
  · exact checkDepth_ok loc h

theorem after_checkDepth (loc : Loc) (s : Session) : (checkDepth loc).after s = s := by
  unfold EvalM.after
  by_cases h : s.limit = 0 ∨ s.depth ≤ s.limit
  · rw [checkDepth_within loc h]
  · rw [checkDepth_exceeded loc (by omega) (by omega)]

section Observers

variable {tell : Session → Observer → Session}

theorem output_foldl_tell (h : ∀ s o, (tell s o).output = s.output) (os : List Observer)
    (s : Session) : (os.foldl tell s).output = s.output := by
  induction os generalizing s with
  | nil => rfl
  | cons o os ih => rw [List.foldl_cons, ih, h]

theorem foldl_tell_withLimit {limit : Nat}
    (h : ∀ (s : Session) o, tell (s.withLimit limit) o = (tell s o).withLimit limit)
    (os : List Observer) (s : Session) :
    os.foldl tell (s.withLimit limit) = (os.foldl tell s).withLimit limit :=
  List.foldl_hom (Session.withLimit · limit) fun s o => h s o

end Observers

theorem Session.output_announce (s : Session) (name : Text) (args : List Value) :
    s.output <:+ (s.announce name args).output := by
  have htell (s : Session) (o : Observer) : (tellBefore name args s o).output = s.output := by
    cases o <;> rfl
  unfold announce
  rw [output_foldl_tell htell]
  split
  · exact List.suffix_cons _ _
  · exact List.suffix_rfl

theorem Session.announce_withLimit (s : Session) (limit : Nat) (name : Text) (args : List Value) :
    (s.withLimit limit).announce name args = (s.announce name args).withLimit limit := by
  have htell (s : Session) (o : Observer) :
      tellBefore name args (s.withLimit limit) o = (tellBefore name args s o).withLimit limit := by
    cases o <;> rfl
  have htrace : (s.withLimit limit).trace = s.trace := rfl
  unfold announce
  rw [htrace]
  by_cases h : s.trace = true
  · rw [if_pos h, if_pos h]
    exact foldl_tell_withLimit htell s.observers (s.log (s.traceLine name args))
  · rw [if_neg h, if_neg h]
    exact foldl_tell_withLimit htell s.observers s

theorem Session.output_conclude (s : Session) (name : Text) (v : Value) :
    (s.conclude name v).output = s.output :=
  output_foldl_tell (fun _ o => by cases o <;> rfl) s.observers s

theorem Session.conclude_withLimit (s : Session) (limit : Nat) (name : Text) (v : Value) :
    (s.withLimit limit).conclude name v = (s.conclude name v).withLimit limit :=
  foldl_tell_withLimit (fun _ o => by cases o <;> rfl) s.observers s

namespace EvalM.Steady

variable {m m' : Nat}

theorem pure {α : Type} (a : α) : Steady m m' (Pure.pure a : EvalM α) where
  alike s := .refl s
  grows _ := List.suffix_rfl
  within s _ := Answer.within_withLimit m' (.ok a s)

theorem stop {α : Type} (e : Stop) : Steady m m' (throw e : EvalM α) where
  alike s := .refl s
  grows _ := List.suffix_rfl
  within s _ := Answer.within_withLimit m' (.error e s)

/-- A change of the session that does not look at the limit. -/
theorem change {f : Session → Session} (halike : ∀ s : Session, s.Alike (f s))
    (hgrows : ∀ s, s.output <:+ (f s).output)
    (hlimit : ∀ s, f (s.withLimit m') = (f s).withLimit m') :
    Steady m m' (modify f : EvalM Unit) where
  alike := halike
  grows := hgrows
  within s _ := by
    show Answer.Within m' (.ok () (f s)) (.ok () (f (s.withLimit m')))
    rw [hlimit]
    exact Answer.within_withLimit m' (.ok () (f s))

theorem bind {α β : Type} {act : EvalM α} {k : α → EvalM β} (hact : Steady m m' act)
    (hk : ∀ a, Steady m m' (k a)) : Steady m m' (act >>= k) where
  alike := @Progress.bind _ progress_settings 0 _ _ _ _ hact.alike fun a => (hk a).alike
  grows s := (hact.grows s).trans (output_bind act (fun a => (hk a).grows) s)
  within s hs := by
    have hin := hact.within s hs
    have halike := hact.alike s
    unfold EvalM.after at halike
    generalize hr' : act (s.withLimit m') = r' at hin
    cases hr : act s with
    | ok a t =>
      rw [hr] at hin halike
      cases hin with
      | same _ =>
        rw [bind_of_ok hr, bind_of_ok hr']
        exact (hk a).within t (halike.limit.trans hs)
      | cut h _ => exact h.elim
    | error e t =>
      rw [hr] at hin
      rw [bind_of_error hr]
      cases hin with
      | same h =>
        rw [bind_of_error hr']
        exact .same h
      | cut h ho =>
        refine .cut h (ho.trans ?_)
        have hmore := output_bind act (fun a => (hk a).grows) (s.withLimit m')
        unfold EvalM.after at hmore
        rw [hr'] at hmore
        exact hmore

theorem pushFrame (home : FrameId) (name : Text) (bindings : List (Text × Value)) :
    Steady m m' (Evaluator.pushFrame home name bindings) where
  alike _ := ⟨rfl, rfl, rfl, rfl, rfl, rfl, rfl, rfl⟩
  grows _ := List.suffix_rfl
  within s _ := Answer.within_withLimit m' (Evaluator.pushFrame home name bindings s)

theorem announce (name : Text) (args : List Value) :
    Steady m m' (modify (·.announce name args) : EvalM Unit) :=
  .change (progress_settings.announce 0 · name args) (·.output_announce name args)
    (·.announce_withLimit m' name args)

theorem conclude (name : Text) (v : Value) :
    Steady m m' (modify (·.conclude name v) : EvalM Unit) := by
  refine .change (progress_settings.conclude 0 · name v) (fun s => ⟨[], ?_⟩)
    (·.conclude_withLimit m' name v)
  rw [List.nil_append, s.output_conclude]

theorem observed (name : Text) (args : List Value) {act : EvalM Value} (h : Steady m m' act) :
    Steady m m' (EvalM.observed name args act) :=
  bind (announce name args) fun _ => bind h fun v => bind (conclude name v) fun _ => pure v

theorem located {α : Type} (loc : Loc) {act : EvalM α} (h : Steady m m' act) :
    Steady m m' (EvalM.located loc act) where
  alike s := by
    rw [after_located]
    exact h.alike s
  grows s := by
    rw [after_located]
    exact h.grows s
  within s hs := by
    have hin := h.within s hs
    unfold EvalM.located
    generalize act (s.withLimit m') = r' at hin
    generalize act s = r at hin
    cases hin with
    | same hr =>
      cases r with
      | ok a t => exact .same hr
      | error e t =>
        cases e with
        | fault f => exact Answer.within_withLimit m' (.error (.fault (f.locate loc)) t)
        | outOfFuel => exact .same hr
    | cut hr ho =>
      cases r with
      | ok a t => exact hr.elim
      | error e t =>
        cases e with
        | fault f =>
          refine .cut ((isLimit_locate f loc).trans hr) ?_
          rcases r' with _ | ⟨_ | _, _⟩ <;> exact ho
        | outOfFuel => cases hr

theorem checkDepth (loc : Loc) (hm : 0 < m) (hm' : m' = 0 ∨ m < m') :
    Steady m m' (EvalM.checkDepth loc) where
  alike s := progress_settings.checkDepth 0 loc s
  grows s := by
    refine ⟨[], ?_⟩
    rw [List.nil_append, after_checkDepth]
  within s hs := by
    by_cases hd : s.depth ≤ m
    · have hd' : (s.withLimit m').limit = 0 ∨ (s.withLimit m').depth ≤ (s.withLimit m').limit := by
        show m' = 0 ∨ s.depth ≤ m'
        omega
      rw [checkDepth_within loc (by omega), checkDepth_within loc hd']
      exact .same id
    · rw [checkDepth_exceeded loc (hs ▸ hm) (by omega)]
      refine .cut rfl ?_
      show s.output <:+ ((EvalM.checkDepth loc).after (s.withLimit m')).output
      rw [after_checkDepth]
      exact List.suffix_rfl

theorem nested {α : Type} {act : EvalM α} (h : Steady m m' act) :
    Steady m m' (EvalM.nested act) where
  alike s := by
    rw [after_nested]
    exact @Progress.nested _ progress_settings 0 _ _ (h.alike _)
  grows s := by
    rw [after_nested]
    exact h.grows { s with depth := s.depth + 1 }
  within s hs := by
    have hin := h.within { s with depth := s.depth + 1 } hs
    show Answer.Within m' (EvalM.nested act s) (EvalM.nested act (s.withLimit m'))
    unfold EvalM.nested
    dsimp only [Session.withLimit] at hin ⊢
    generalize act { s with depth := s.depth + 1, limit := m' } = r' at hin ⊢
    generalize act { s with depth := s.depth + 1 } = r at hin ⊢
    cases hin with
    | same hr => cases r <;> exact .same hr
    | cut hr ho =>
      cases r with
      | ok a t => exact hr.elim
      | error e t =>
        refine .cut hr ?_
        cases r' <;> exact ho

end EvalM.Steady

/-- **Every step of an evaluation hands steadiness on.** -/
theorem lasting_steady {m m' : Nat} (hm : 0 < m) (hm' : m' = 0 ∨ m < m') :
    Lasting fun _ _ act => EvalM.Steady m m' act where
  pure a := .pure a
  fail f := .stop (.fault f)
  outOfFuel := .stop .outOfFuel
  bind h hk := .bind h hk
  look _ hk := ⟨fun s => (hk s.view).alike s, fun s => (hk s.view).grows s,
    fun s => (hk s.view).within s⟩
  bindName name v := .change (progress_settings.bindName _ · name v) (fun _ => List.suffix_rfl)
    fun _ => rfl
  put _ := .change (fun s => progress_settings.report 0 s _ _ _ _)
    (fun _ => List.suffix_append _ _) fun _ => rfl
  probe _ _ := .change (fun s => progress_settings.report 0 s _ _ _ _)
    (fun _ => List.suffix_rfl) fun _ => rfl
  inside home name bindings _ hk := .bind (.pushFrame home name bindings) hk
  observed name args _ h := .observed name args h
  nested loc _ h := .nested (.bind (.checkDepth loc hm hm') fun _ => h)
  located loc _ h := .located loc h

/-! ## 3. The result -/

/-- What was put out first is printed first. -/
theorem printedText_prefix {s t : Session} (h : s.output <:+ t.output) :
    s.printedText <+: t.printedText := by
  obtain ⟨new, hnew⟩ := h
  unfold Session.printedText
  rw [← hnew, List.reverse_append, List.flatMap_append]
  exact List.prefix_append _ _

/-- The evaluation of a form ends with this answer, with whatever fuel from some on. -/
def Session.Answers (s : Session) (env : FrameId) (form : Value) (r : Answer Value) : Prop :=
  Finished r ∧ ∃ n, ∀ n', n ≤ n' → (ofFuel n').eval env form s = r

theorem answers_of_fuel {s : Session} {env : FrameId} {form : Value} {n : Nat} {r : Answer Value}
    (hr : (ofFuel n).eval env form s = r) (h : Finished r) : s.Answers env form r := by
  have hform : Routine True env fun ev => ev.eval env form := .eval form
  subst hr
  exact ⟨h, n, fun n' hn' => hform.stable hn' s h⟩

theorem exists_answers {s : Session} (h : 0 < s.limit) (env : FrameId) (form : Value) :
    ∃ r, s.Answers env form r := by
  obtain ⟨n, hn⟩ := formsEnd h s.depth env form s rfl rfl
  exact ⟨_, answers_of_fuel rfl hn⟩

theorem eval_within {m m' : Nat} (hm : 0 < m) (hm' : m' = 0 ∨ m < m') (n : Nat) (env : FrameId)
    (form : Value) (s : Session) :
    Answer.Within m' ((ofFuel n).eval env form (s.withLimit m))
      ((ofFuel n).eval env form (s.withLimit m')) :=
  (((lasting_steady hm hm').ofFuel n).1 env form).within (s.withLimit m) rfl

/-- Under a larger limit or none the answer is the same, unless the smaller one stopped it. -/
theorem answers_withLimit {s : Session} {env : FrameId} {form : Value} {m m' : Nat} (hm : 0 < m)
    (hm' : m' = 0 ∨ m < m') {r : Answer Value} (h : (s.withLimit m).Answers env form r)
    (hr : ¬ r.AtLimit) : (s.withLimit m').Answers env form (r.withLimit m') := by
  obtain ⟨hfinished, n, hn⟩ := h
  refine ⟨Answer.finished_withLimit hfinished, n, fun n' hn' => ?_⟩
  have hin := eval_within hm hm' n' env form s
  rw [hn n' hn'] at hin
  generalize (ofFuel n').eval env form (s.withLimit m') = r' at hin ⊢
  cases hin with
  | same _ => rfl
  | cut h _ => exact absurd h hr

/-- **A limit only decides where an evaluation is cut off.** If an evaluation ends under the limit
    `m` with a value, or with a fault other than too deep a nesting, then it ends in the same way
    under a larger limit and under none, and leaves the same session but for the limit: the same
    frames, and the same output. If it is stopped under `m`, then what was printed by then is the
    beginning of what is printed under the larger limit. -/
theorem limit_only_cuts (s : Session) (env : FrameId) (form : Value) {m m' : Nat} (hm : 0 < m)
    (hm' : m < m') {r : Answer Value} (h : (s.withLimit m).Answers env form r) :
    (¬ r.AtLimit → (s.withLimit m').Answers env form (r.withLimit m') ∧
      (s.withLimit 0).Answers env form (r.withLimit 0)) ∧
    (r.AtLimit → ∃ r', (s.withLimit m').Answers env form r' ∧
      r.session.printedText <+: r'.session.printedText) := by
  refine ⟨fun hr => ⟨answers_withLimit hm (.inr hm') h hr, answers_withLimit hm (.inl rfl) h hr⟩,
    fun hr => ?_⟩
  obtain ⟨r', hr'⟩ := exists_answers (s := s.withLimit m') (Nat.lt_trans hm hm') env form
  refine ⟨r', hr', printedText_prefix ?_⟩
  -- with fuel enough for both runs, the second goes on where the first was stopped
  obtain ⟨-, n, hn⟩ := h
  obtain ⟨-, n', hn'⟩ := hr'
  have hin := eval_within hm (.inr hm') (max n n') env form s
  rw [hn _ (Nat.le_max_left n n'), hn' _ (Nat.le_max_right n n')] at hin
  cases hin with
  | same h => exact absurd hr h
  | cut _ ho => exact ho

/-- A session in which the global function `chant` prints and then calls itself, for ever. -/
def chantSession : Session :=
  (Session.fresh "0.0.0").addGlobal "chant" (.closure "chant" (some [])
    [.list [.atom "print" Loc.start, .string "om "] Loc.start,
      .list [.atom "chant" Loc.start] Loc.start] 0)

/-- The call of `chant`. -/
def chantForm : Value := .list [.atom "chant" Loc.start] Loc.start

/-- The answer to that call under limit 3. -/
@[irreducible] def chantAnswer : Answer Value :=
  (ofFuel 20).eval 0 chantForm (chantSession.withLimit 3)

theorem chantAnswer_atLimit : chantAnswer.AtLimit := by decide +kernel

theorem chantSession_answers : (chantSession.withLimit 3).Answers 0 chantForm chantAnswer :=
  answers_of_fuel (n := 20) (by rw [chantAnswer]) (Answer.finished_of_atLimit chantAnswer_atLimit)

theorem limit_only_cuts_chant : 0 < 3 ∧ 3 < 5 ∧
    (chantSession.withLimit 3).Answers 0 chantForm chantAnswer ∧ chantAnswer.AtLimit ∧
    ∃ r', (chantSession.withLimit 5).Answers 0 chantForm r' ∧
      chantAnswer.session.printedText <+: r'.session.printedText :=
  ⟨by decide, by decide, chantSession_answers, chantAnswer_atLimit,
    (limit_only_cuts chantSession 0 chantForm (by decide) (by decide) chantSession_answers).2
      chantAnswer_atLimit⟩

example : chantAnswer.session.printedText = "om om " := by decide +kernel

end SmallLisp
