import SmallLisp.Proofs.Eval.Limit

/-!
# Calls

A call looks up what its head stands for (`Store.Denotes`) and applies that (`eval_call`). A call of
a native function by its name tells the observers, runs the function and tells them again. What
matters of this to the value of the call is whether the session allows one more application
(`eval_native`).
-/

namespace SmallLisp

open EvalM Evaluator

namespace Session

theorem store_foldl {α : Type} {f : Session → α → Session} (h : ∀ s a, (f s a).store = s.store)
    (as : List α) (s : Session) : (as.foldl f s).store = s.store := by
  induction as generalizing s with
  | nil => rfl
  | cons a as ih => rw [List.foldl_cons, ih, h]

theorem store_announce (s : Session) (name : Text) (args : List Value) :
    (s.announce name args).store = s.store := by
  have htell (s : Session) (o : Observer) : (tellBefore name args s o).store = s.store := by
    cases o <;> rfl
  unfold announce
  dsimp only
  rw [store_foldl htell]
  split <;> rfl

theorem store_conclude (s : Session) (name : Text) (v : Value) :
    (s.conclude name v).store = s.store := store_foldl (fun _ o => by cases o <;> rfl) _ s

/-- One more application may be nested. -/
def HasRoom (s : Session) : Prop := s.limit = 0 ∨ s.depth < s.limit

end Session

/-- The session inside one more application of a function. -/
structure Session.Inside (s s' : Session) : Prop where
  store : s'.store = s.store
  limit : s'.limit = s.limit
  depth : s'.depth = s.depth + 1

/-- An application that gives a value gives it with observers too, and they bind nothing. -/
theorem observed_ok {name : Text} {args : List Value} {act : EvalM Value} {s t : Session}
    {v : Value} (h : act (s.announce name args) = .ok v t) :
    observed name args act s = .ok v (t.conclude name v) := by
  show (act >>= fun v => do modify (·.conclude name v); pure v) (s.announce name args) = _
  rw [bind_of_ok h]
  rfl

/-- The head of a call stands for the function `f`: it is that function, or an atom bound to it. -/
inductive Store.Denotes (st : Store) (env : FrameId) : Value → Value → Prop where
  | native (n : Native) : Denotes st env (.native n) (.native n)
  | closure (name : Text) (params : Option (List Text)) (body : List Value) (home : FrameId) :
      Denotes st env (.closure name params body home) (.closure name params body home)
  | atom {name : Text} {loc : Loc} {f : Value} : st.get? env name = some f →
      Denotes st env (.atom name loc) f

/-- Such a head is only looked up. -/
theorem Store.Denotes.eval {st : Store} {env : FrameId} {head f : Value}
    (h : st.Denotes env head f) {s : Session} (hs : s.store = st) (n : Nat) :
    (ofFuel (n + 1)).eval env head s = .ok f s := by
  subst hs
  cases h with
  | native => rfl
  | closure => rfl
  | @atom name loc f hname =>
    show (ofFuel n).evalForm env (.atom name loc) s = _
    rw [evalForm_atom]
    show (s.store.get? env name).elim (raise ⟨loc, .undefinedVariable name⟩) pure s = _
    rw [hname]
    rfl

/-- **A call of a function**, if the session allows one more application. -/
theorem eval_call {s : Session} {env : FrameId} {head f : Value} (hroom : s.HasRoom)
    (hhead : s.store.Denotes env head f) (n : Nat) (args : List Value) (loc : Loc) :
    (ofFuel (n + 2)).eval env (.list (head :: args) loc) s =
      nested (located loc ((ofFuel (n + 1)).applyForms env loc f args)) s := by
  let inner : Session := { s with depth := s.depth + 1 }
  have hcheck : checkDepth loc inner = .ok () inner := checkDepth_within loc hroom
  have hstore : inner.store = s.store := rfl
  have hlook : (ofFuel (n + 1)).eval env head inner = .ok f inner := hhead.eval hstore n
  have hinner : (checkDepth loc >>= fun _ => (ofFuel (n + 1)).eval env head >>= fun f =>
      located loc ((ofFuel (n + 1)).applyForms env loc f args)) inner =
      located loc ((ofFuel (n + 1)).applyForms env loc f args) inner := by
    rw [bind_of_ok hcheck, bind_of_ok hlook]
  show nested _ s = nested _ s
  unfold nested
  rw [hinner]

/-- **A call of a native function by its name** has the value that running the function has, if the
    session allows one more application. -/
theorem eval_native {n : Nat} {env : FrameId} {name : Text} {f : Native} {args : List Value}
    {v : Value} {s : Session} (hname : s.store.get? env name = some (.native f))
    (hroom : s.HasRoom)
    (hrun : ∀ s', s.Inside s' →
      ∃ t, (ofFuel (n + 1)).runNative env f args s' = .ok v t ∧ t.store = s'.store)
    (l loc : Loc) :
    ∃ t, (ofFuel (n + 2)).eval env (.list (.atom name l :: args) loc) s = .ok v t ∧
      t.store = s.store := by
  let inner : Session := { s with depth := s.depth + 1 }
  have hannounce := progress_settings.announce 0 inner f.name args
  obtain ⟨t, ht, hstore⟩ := hrun (inner.announce f.name args)
    ⟨inner.store_announce f.name args, hannounce.limit, hannounce.depth⟩
  have happly : located loc ((ofFuel (n + 1)).applyForms env loc (.native f) args) inner =
      .ok v (t.conclude f.name v) := by
    unfold located
    rw [show (ofFuel (n + 1)).applyForms env loc (.native f) args inner = _ from observed_ok ht]
  refine ⟨{ t.conclude f.name v with depth := (t.conclude f.name v).depth - 1 }, ?_, ?_⟩
  · rw [eval_call hroom (.atom hname)]
    unfold nested
    rw [happly]
  · show (t.conclude f.name v).store = s.store
    rw [Session.store_conclude, hstore, Session.store_announce]

end SmallLisp
