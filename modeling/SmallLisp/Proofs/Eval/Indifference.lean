import SmallLisp.Proofs.Eval.Calls
import SmallLisp.Proofs.Value.Likeness

/-!
# What an evaluation is indifferent to

In a session without a limit, how many applications are in progress, who watches them and what is
logged of them have no influence on an evaluation. `Session.Equiv` says that two sessions differ in
nothing else, and `Answer.Equiv` says so of answers, whose errors may also differ in their place.

* The bookkeeping around an application can be left out on either side (`Answer.Equiv.nested_left`
  and the lemmas after it);
* `lasting_same`: what an evaluation does in one session it does in every equivalent one, and the
  places of its errors are the same too (`Answer.Same`);
* `Routine.equiv`: and so it does with more fuel.
-/

namespace SmallLisp

open EvalM Evaluator

/-! ## 1. Sessions -/

/-- Neither session has a limit, and they have the same frames and settings and have printed the
    same. They may differ in the applications in progress, in the log and its settings, and in
    observers and what these have noted. -/
structure Session.Equiv (s t : Session) : Prop where
  version : s.version = t.version
  store : s.store = t.store
  root : s.root = t.root
  verbose : s.verbose = t.verbose
  printer : s.printer = t.printer
  unlimited : s.limit = 0
  unlimited' : t.limit = 0
  printed : s.printedText = t.printedText

theorem Session.printedText_put {s t : Session} (h : s.printedText = t.printedText)
    (out : List Output) : Session.printedText { s with output := out ++ s.output } =
      Session.printedText { t with output := out ++ t.output } := by
  unfold printedText at h ⊢
  simp [h]

theorem Session.printedText_announce (s : Session) (name : Text) (args : List Value) :
    (s.announce name args).printedText = s.printedText := by
  have htell (s : Session) (o : Observer) : (tellBefore name args s o).output = s.output := by
    cases o <;> rfl
  unfold announce printedText
  rw [output_foldl_tell htell]
  split
  · simp [log]
  · rfl

theorem Session.printedText_conclude (s : Session) (name : Text) (v : Value) :
    (s.conclude name v).printedText = s.printedText := by
  unfold printedText
  rw [output_conclude]

namespace Session.Equiv

variable {s t u : Session}

theorem refl (h : s.limit = 0) : s.Equiv s := ⟨rfl, rfl, rfl, rfl, rfl, h, h, rfl⟩

theorem symm (h : s.Equiv t) : t.Equiv s :=
  ⟨h.version.symm, h.store.symm, h.root.symm, h.verbose.symm, h.printer.symm, h.unlimited',
    h.unlimited, h.printed.symm⟩

theorem trans (h : s.Equiv t) (h' : t.Equiv u) : s.Equiv u :=
  ⟨h.version.trans h'.version, h.store.trans h'.store, h.root.trans h'.root,
    h.verbose.trans h'.verbose, h.printer.trans h'.printer, h.unlimited, h'.unlimited',
    h.printed.trans h'.printed⟩

theorem withDepth (h : s.Equiv t) (d : Nat) : s.Equiv { t with depth := d } := { h with }

theorem announce (h : s.Equiv t) (name : Text) (args : List Value) :
    s.Equiv (t.announce name args) := by
  have halike := progress_settings.announce 0 t name args
  exact ⟨h.version.trans halike.version.symm, h.store.trans (t.store_announce name args).symm,
    h.root.trans halike.root.symm, h.verbose.trans halike.verbose.symm,
    h.printer.trans halike.printer.symm, h.unlimited, halike.limit.trans h.unlimited',
    h.printed.trans (t.printedText_announce name args).symm⟩

theorem conclude (h : s.Equiv t) (name : Text) (v : Value) : s.Equiv (t.conclude name v) := by
  have halike := progress_settings.conclude 0 t name v
  exact ⟨h.version.trans halike.version.symm, h.store.trans (t.store_conclude name v).symm,
    h.root.trans halike.root.symm, h.verbose.trans halike.verbose.symm,
    h.printer.trans halike.printer.symm, h.unlimited, halike.limit.trans h.unlimited',
    h.printed.trans (t.printedText_conclude name v).symm⟩

end Session.Equiv

/-! ## 2. Answers -/

/-- The faults are the same but for the place of an evaluation error. -/
abbrev Fault.Equiv : Fault → Fault → Prop := Fault.Like fun _ _ => True

theorem Fault.Equiv.symm {f f' : Fault} (h : f.Equiv f') : f'.Equiv f := by
  cases h with
  | read e => exact .read e
  | eval he => exact .eval ⟨trivial, he.cause.symm⟩
  | malformed => exact .malformed

theorem Fault.Equiv.locate {f f' : Fault} (h : f.Equiv f') (loc : Loc) :
    f.Equiv (f'.locate loc) := by
  cases h with
  | read e => exact .read e
  | malformed => exact .malformed
  | eval he =>
    refine .eval ⟨trivial, he.cause.trans ?_⟩
    unfold EvalError.locate
    split <;> rfl

/-- Both answers are values that `R` relates, or both are the same fault but for its place, in
    equivalent sessions. Where the first is missing for want of fuel, nothing is said. -/
inductive Answer.Equiv {α β : Type} (R : α → β → Prop) : Answer α → Answer β → Prop where
  | ok {a : α} {b : β} {s t : Session} : R a b → s.Equiv t → Equiv R (.ok a s) (.ok b t)
  | fault {f f' : Fault} {s t : Session} : f.Equiv f' → s.Equiv t →
      Equiv R (.error (.fault f) s) (.error (.fault f') t)
  | outOfFuel {s : Session} {r : Answer β} : Equiv R (.error .outOfFuel s) r

namespace Answer.Equiv

variable {α β γ δ : Type} {R : α → β → Prop} {s t : Session}

theorem finished {r : Answer α} {r' : Answer β} (h : Equiv R r r') (hr : Finished r) :
    Finished r' := by
  cases h with
  | ok => trivial
  | fault => trivial
  | outOfFuel => exact hr.elim

theorem of_not_finished {r : Answer α} {r' : Answer β} (h : ¬ Finished r) : Equiv R r r' := by
  cases r with
  | ok a s => exact absurd trivial h
  | error e s =>
    cases e with
    | fault f => exact absurd trivial h
    | outOfFuel => exact .outOfFuel

theorem of_ok {a : α} {r : Answer α} (h : Equiv Eq (.ok a s) r) :
    ∃ t, r = .ok a t ∧ s.Equiv t := by
  cases h with
  | ok hab hst => exact ⟨_, by rw [hab], hst⟩

theorem bind {Q : γ → δ → Prop} {m : EvalM α} {m' : EvalM β} {k : α → EvalM γ} {k' : β → EvalM δ}
    (hm : Equiv R (m s) (m' t))
    (hk : ∀ {a b}, R a b → ∀ {u u' : Session}, u.Equiv u' → Equiv Q (k a u) (k' b u')) :
    Equiv Q ((m >>= k) s) ((m' >>= k') t) := by
  show Equiv Q (EStateM.bind m k s) (EStateM.bind m' k' t)
  unfold EStateM.bind
  generalize m s = r at hm ⊢
  generalize m' t = r' at hm ⊢
  cases hm with
  | ok hR hst => exact hk hR hst
  | fault hf hst => exact .fault hf hst
  | outOfFuel => exact .outOfFuel

/-- What is made of a value afterwards may be related to what it is made of. -/
theorem map_right {g : β → γ} {Q : α → γ → Prop} {r : Answer α} {m : EvalM β}
    (h : Equiv R r (m t)) (hg : ∀ {a b}, R a b → Q a (g b)) :
    Equiv Q r ((m >>= fun b => pure (g b)) t) := by
  show Equiv Q r (EStateM.bind m _ t)
  unfold EStateM.bind
  generalize m t = r' at h ⊢
  cases h with
  | ok hR hst => exact .ok (hg hR) hst
  | fault hf hst => exact .fault hf hst
  | outOfFuel => exact .outOfFuel

/-! Bookkeeping on the right and on the left. -/

theorem nested_right {r : Answer α} {m : EvalM β}
    (h : Equiv R r (m { t with depth := t.depth + 1 })) : Equiv R r (EvalM.nested m t) := by
  unfold EvalM.nested
  generalize m _ = r' at h ⊢
  cases h with
  | ok hR hst => exact .ok hR (hst.withDepth _)
  | fault hf hst => exact .fault hf (hst.withDepth _)
  | outOfFuel => exact .outOfFuel

theorem nested_left {r : Answer β} {m : EvalM α}
    (h : Equiv R (m { s with depth := s.depth + 1 }) r) : Equiv R (EvalM.nested m s) r := by
  unfold EvalM.nested
  generalize m _ = r' at h ⊢
  cases h with
  | ok hR hst => exact .ok hR (hst.symm.withDepth _).symm
  | fault hf hst => exact .fault hf (hst.symm.withDepth _).symm
  | outOfFuel => exact .outOfFuel

theorem located_right {r : Answer α} {m : EvalM β} (loc : Loc) (h : Equiv R r (m t)) :
    Equiv R r (EvalM.located loc m t) := by
  unfold EvalM.located
  generalize m t = r' at h ⊢
  cases h with
  | ok hR hst => exact .ok hR hst
  | fault hf hst => exact .fault (hf.locate loc) hst
  | outOfFuel => exact .outOfFuel

theorem located_left {r : Answer β} {m : EvalM α} (loc : Loc) (h : Equiv R (m s) r) :
    Equiv R (EvalM.located loc m s) r := by
  unfold EvalM.located
  generalize m s = r' at h ⊢
  cases h with
  | ok hR hst => exact .ok hR hst
  | fault hf hst => exact .fault (hf.symm.locate loc).symm hst
  | outOfFuel => exact .outOfFuel

theorem observed_right {R : α → Value → Prop} {r : Answer α} {m : EvalM Value} (name : Text)
    (args : List Value) (h : Equiv R r (m (t.announce name args))) :
    Equiv R r (EvalM.observed name args m t) := by
  show Equiv R r (EStateM.bind m _ (t.announce name args))
  unfold EStateM.bind
  generalize m _ = r' at h ⊢
  cases h with
  | ok hR hst => exact .ok hR (hst.conclude name _)
  | fault hf hst => exact .fault hf hst
  | outOfFuel => exact .outOfFuel

theorem observed_left {R : Value → β → Prop} {r : Answer β} {m : EvalM Value} (name : Text)
    (args : List Value) (h : Equiv R (m (s.announce name args)) r) :
    Equiv R (EvalM.observed name args m s) r := by
  show Equiv R (EStateM.bind m _ (s.announce name args)) r
  unfold EStateM.bind
  generalize m _ = r' at h ⊢
  cases h with
  | ok hR hst => exact .ok hR (hst.symm.conclude name _).symm
  | fault hf hst => exact .fault hf hst
  | outOfFuel => exact .outOfFuel

end Answer.Equiv

/-! ## 3. The same answers -/

/-- The answers are the same, in equivalent sessions. -/
inductive Answer.Same {α : Type} : Answer α → Answer α → Prop where
  | ok (a : α) {s t : Session} : s.Equiv t → Same (.ok a s) (.ok a t)
  | error (e : Stop) {s t : Session} : s.Equiv t → Same (.error e s) (.error e t)

namespace Answer.Same

variable {α β : Type} {s t : Session} {r r' : Answer α}

theorem symm (h : Same r r') : Same r' r := by
  cases h with
  | ok a hst => exact .ok a hst.symm
  | error e hst => exact .error e hst.symm

theorem finished (h : Same r r') (hr : Finished r) : Finished r' := by
  cases h with
  | ok => trivial
  | error e => cases e <;> exact hr

theorem equiv (h : Same r r') : Answer.Equiv Eq r r' := by
  cases h with
  | ok a hst => exact .ok rfl hst
  | error e hst =>
    cases e with
    | fault f => exact .fault (.refl (fun _ => trivial) f) hst
    | outOfFuel => exact .outOfFuel

theorem bind {m m' : EvalM α} {k k' : α → EvalM β} (hm : Same (m s) (m' t))
    (hk : ∀ a {u u' : Session}, u.Equiv u' → Same (k a u) (k' a u')) :
    Same ((m >>= k) s) ((m' >>= k') t) := by
  show Same (EStateM.bind m k s) (EStateM.bind m' k' t)
  unfold EStateM.bind
  generalize m s = r at hm ⊢
  generalize m' t = r' at hm ⊢
  cases hm with
  | ok a hst => exact hk a hst
  | error e hst => exact .error e hst

/-! Bookkeeping can be left out, where it changes no place. -/

theorem nested_right {m : EvalM α} (h : Same r (m { t with depth := t.depth + 1 })) :
    Same r (EvalM.nested m t) := by
  unfold EvalM.nested
  generalize m _ = r' at h ⊢
  cases h with
  | ok a hst => exact .ok a (hst.withDepth _)
  | error e hst => exact .error e (hst.withDepth _)

theorem observed_right {r : Answer Value} {m : EvalM Value} (name : Text) (args : List Value)
    (h : Same r (m (t.announce name args))) : Same r (EvalM.observed name args m t) := by
  show Same r (EStateM.bind m _ (t.announce name args))
  unfold EStateM.bind
  generalize m _ = r' at h ⊢
  cases h with
  | ok v hst => exact .ok v (hst.conclude name v)
  | error e hst => exact .error e hst

theorem located (loc : Loc) {m m' : EvalM α} (h : Same (m s) (m' t)) :
    Same (EvalM.located loc m s) (EvalM.located loc m' t) := by
  unfold EvalM.located
  generalize m s = r at h ⊢
  generalize m' t = r' at h ⊢
  cases h with
  | ok a hst => exact .ok a hst
  | error e hst => cases e <;> exact .error _ hst

end Answer.Same

/-! ## 4. Evaluations -/

/-- In equivalent sessions the actions have the same answer. -/
def EvalM.Same {α : Type} (m m' : EvalM α) : Prop :=
  ∀ ⦃s t : Session⦄, s.Equiv t → Answer.Same (m s) (m' t)

/-- In equivalent sessions the second action gives an equivalent answer. -/
def EvalM.Equiv {α : Type} (m m' : EvalM α) : Prop :=
  ∀ ⦃s t : Session⦄, s.Equiv t → Answer.Equiv Eq (m s) (m' t)

namespace EvalM.Same

/-- Both actions change their session. -/
theorem change {f : Session → Session} (h : ∀ {s t : Session}, s.Equiv t → (f s).Equiv (f t)) :
    Same (modify f : EvalM Unit) (modify f) := fun _ _ hst => .ok () (h hst)

theorem pushFrame (home : FrameId) (name : Text) (bindings : List (Text × Value)) :
    Same (Evaluator.pushFrame home name bindings) (Evaluator.pushFrame home name bindings) := by
  intro s t h
  have hframe : (s.store.push home name).1 = (t.store.push home name).1 := by rw [h.store]
  show Answer.Same (.ok (s.store.push home name).1 _) (.ok (t.store.push home name).1 _)
  rw [hframe]
  refine .ok _ { h with store := ?_ }
  dsimp only
  rw [h.store]

theorem nested {α : Type} {m : EvalM α} (loc : Loc) (h : Same m m) :
    Same (EvalM.nested (checkDepth loc >>= fun _ => m))
      (EvalM.nested (checkDepth loc >>= fun _ => m)) := by
  have hcheck {u : Session} (hu : u.limit = 0) : (checkDepth loc >>= fun _ => m) u = m u :=
    bind_of_ok (checkDepth_within loc (.inl hu))
  intro s t hst
  have hdeeper := ((hst.withDepth (t.depth + 1)).symm.withDepth (s.depth + 1)).symm
  have hinner := h hdeeper
  rw [← hcheck hdeeper.unlimited, ← hcheck hdeeper.unlimited'] at hinner
  exact (Answer.Same.nested_right (Answer.Same.nested_right hinner).symm).symm

end EvalM.Same

/-- **An evaluation goes the same way in every equivalent session.** -/
theorem lasting_same : Lasting fun _ _ act => EvalM.Same act act where
  pure a := fun _ _ h => .ok a h
  fail f := fun _ _ h => .error (.fault f) h
  outOfFuel := fun h => .error .outOfFuel h
  bind hm hk := fun _ _ h => (hm h).bind fun a _ _ hu => hk a hu
  look k hk := fun s t h => by
    have hview : s.view = t.view := by
      unfold Session.view
      rw [h.store, h.verbose, h.printer]
    show Answer.Same (k s.view s) (k t.view t)
    rw [hview]
    exact hk _ h
  bindName name v := .change fun h => { h with store := by rw [h.store] }
  put out := .change fun h => { h with printed := Session.printedText_put h.printed out }
  probe _ _ := .change fun h => { h with }
  inside home name bindings _ hk := fun _ _ h =>
    (EvalM.Same.pushFrame home name bindings h).bind fun frame _ _ hu => hk frame hu
  observed name args _ hm := fun _ _ h =>
    (Answer.Same.observed_right name args (Answer.Same.observed_right name args
      (hm ((h.symm.announce name args).symm.announce name args))).symm).symm
  nested loc _ hm := .nested loc hm
  located loc _ hm := fun _ _ h => .located loc (hm h)

theorem Routine.same {applies : Prop} {env : FrameId} {α : Type} {m : Evaluator → EvalM α}
    (h : Routine applies env m) (n : Nat) : EvalM.Same (m (ofFuel n)) (m (ofFuel n)) :=
  lasting_same.routine (lasting_same.ofFuel n).1 (lasting_same.ofFuel n).2 h

/-- With more fuel an evaluation goes the same way in every equivalent session. -/
theorem Routine.equiv {applies : Prop} {env : FrameId} {α : Type} {m : Evaluator → EvalM α}
    (h : Routine applies env m) {n n' : Nat} (hn : n ≤ n') :
    EvalM.Equiv (m (ofFuel n)) (m (ofFuel n')) := by
  intro s t hst
  have hagree := (h.same n hst).equiv
  by_cases hfinished : Finished (m (ofFuel n) s)
  · rw [h.stable hn t (hagree.finished hfinished)]
    exact hagree
  · exact .of_not_finished hfinished

end SmallLisp
