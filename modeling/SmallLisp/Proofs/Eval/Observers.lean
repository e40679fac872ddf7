import SmallLisp.Proofs.Eval.Limit

/-!
# Observers only watch

A session tells its observers about every application. They count and write down what they are told,
and that is all they do: `Session.unwatched` is a session without its observers and without what
they have noted, and an evaluation in it goes the same way and leaves the same session, the notes
apart (`eval_unwatched`).
-/

namespace SmallLisp

open EvalM Evaluator

/-! ## 1. Sessions without observers -/

/-- The session without its observers and without what they have noted. -/
def Session.unwatched (s : Session) : Session :=
  { s with observers := [], started := [], finished := [], journal := [] }

/-- The answer in a session without observers. -/
def Answer.unwatched {α : Type} : Answer α → Answer α
  | .ok a s => .ok a s.unwatched
  | .error e s => .error e s.unwatched

@[simp] theorem Session.unwatched_unwatched (s : Session) :
    s.unwatched.unwatched = s.unwatched := rfl

@[simp] theorem Answer.unwatched_ok {α : Type} (a : α) (s : Session) :
    Answer.unwatched (.ok a s) = .ok a s.unwatched := rfl

@[simp] theorem Answer.unwatched_error {α : Type} (e : Stop) (s : Session) :
    Answer.unwatched (.error e s : Answer α) = .error e s.unwatched := rfl

theorem Session.unwatched_foldl_tell {tell : Session → Observer → Session}
    (h : ∀ s o, (tell s o).unwatched = s.unwatched) (os : List Observer) (s : Session) :
    (os.foldl tell s).unwatched = s.unwatched := by
  induction os generalizing s with
  | nil => rfl
  | cons o os ih => rw [List.foldl_cons, ih, h]

/-- An application that starts is logged as it is without observers. -/
theorem Session.unwatched_announce (s : Session) (name : Text) (args : List Value) :
    (s.unwatched.announce name args).unwatched = (s.announce name args).unwatched := by
  have htell (s : Session) (o : Observer) : (tellBefore name args s o).unwatched = s.unwatched := by
    cases o <;> rfl
  unfold announce
  dsimp only
  rw [unwatched_foldl_tell htell, unwatched_foldl_tell htell]
  by_cases htrace : s.trace = true
  · rw [if_pos htrace, if_pos (show s.unwatched.trace = true from htrace)]
    rfl
  · rw [if_neg htrace, if_neg (show ¬ s.unwatched.trace = true from htrace)]
    rfl

theorem Session.unwatched_conclude (s : Session) (name : Text) (v : Value) :
    (s.conclude name v).unwatched = s.unwatched :=
  unwatched_foldl_tell (fun _ o => by cases o <;> rfl) s.observers s

/-! ## 2. Actions that do not mind observers -/

/-- The action goes the same way without observers. -/
def EvalM.Unminding {α : Type} (act : EvalM α) : Prop :=
  ∀ s : Session, Answer.unwatched (act s.unwatched) = Answer.unwatched (act s)

namespace EvalM.Unminding

variable {α β : Type}

/-- Sessions that are the same without observers are as good as one without them. -/
theorem congr {act : EvalM α} (h : Unminding act) {s t : Session}
    (hst : s.unwatched = t.unwatched) : Answer.unwatched (act s) = Answer.unwatched (act t) := by
  rw [← h s, hst, h t]

/-- A change of the session that the observers see nothing of. -/
theorem change {f : Session → Session} (h : ∀ s, (f s.unwatched).unwatched = (f s).unwatched) :
    Unminding (modify f : EvalM Unit) := by
  intro s
  show Answer.unwatched (.ok () (f s.unwatched)) = Answer.unwatched (.ok () (f s))
  simp [h]

theorem bind {m : EvalM α} {k : α → EvalM β} (hm : Unminding m) (hk : ∀ a, Unminding (k a)) :
    Unminding (m >>= k) := by
  intro s
  have hfirst := hm s
  cases hr : m s with
  | ok a t =>
    cases hr' : m s.unwatched with
    | ok a' t' =>
      rw [hr, hr'] at hfirst
      simp only [Answer.unwatched_ok, EStateM.Result.ok.injEq] at hfirst
      obtain ⟨rfl, ht⟩ := hfirst
      rw [bind_of_ok hr, bind_of_ok hr']
      exact (hk _).congr ht
    | error e' t' =>
      rw [hr, hr'] at hfirst
      cases hfirst
  | error e t =>
    cases hr' : m s.unwatched with
    | ok a' t' =>
      rw [hr, hr'] at hfirst
      cases hfirst
    | error e' t' =>
      rw [hr, hr'] at hfirst
      simp only [Answer.unwatched_error, EStateM.Result.error.injEq] at hfirst
      rw [bind_of_error hr, bind_of_error hr']
      simp [hfirst]

theorem observed (name : Text) (args : List Value) {m : EvalM Value} (hm : Unminding m) :
    Unminding (EvalM.observed name args m) := by
  refine bind (change fun s => s.unwatched_announce name args) fun _ => bind hm fun v => ?_
  refine bind (change fun s => ?_) fun _ _ => rfl
  rw [Session.unwatched_conclude, Session.unwatched_conclude, Session.unwatched_unwatched]

theorem checkDepth (loc : Loc) : Unminding (EvalM.checkDepth loc) := by
  intro s
  by_cases h : 0 < s.limit ∧ s.limit < s.depth
  · have h' : 0 < s.unwatched.limit ∧ s.unwatched.limit < s.unwatched.depth := h
    rw [checkDepth_exceeded loc h.1 h.2, checkDepth_exceeded loc h'.1 h'.2]
    rfl
  · have hin : s.limit = 0 ∨ s.depth ≤ s.limit := by omega
    have hin' : s.unwatched.limit = 0 ∨ s.unwatched.depth ≤ s.unwatched.limit := hin
    rw [checkDepth_within loc hin, checkDepth_within loc hin']
    rfl

theorem nested {m : EvalM α} (hm : Unminding m) : Unminding (EvalM.nested m) := by
  intro s
  have hinner : Answer.unwatched (m { s.unwatched with depth := s.unwatched.depth + 1 }) =
      Answer.unwatched (m { s with depth := s.depth + 1 }) := hm { s with depth := s.depth + 1 }
  unfold EvalM.nested
  generalize m { s with depth := s.depth + 1 } = r at hinner ⊢
  generalize m { s.unwatched with depth := s.unwatched.depth + 1 } = r' at hinner ⊢
  -- the count of applications in progress is not noted by observers
  have hdepth {t t' : Session} (h : t'.unwatched = t.unwatched) :
      Session.unwatched { t' with depth := t'.depth - 1 } =
        Session.unwatched { t with depth := t.depth - 1 } :=
    congrArg (fun u : Session => { u with depth := u.depth - 1 }) h
  rcases r with ⟨a, t⟩ | ⟨e, t⟩ <;> rcases r' with ⟨a', t'⟩ | ⟨e', t'⟩ <;>
    simp only [Answer.unwatched_ok, Answer.unwatched_error, EStateM.Result.ok.injEq,
      EStateM.Result.error.injEq, reduceCtorEq] at hinner ⊢
  · exact ⟨hinner.1, hdepth hinner.2⟩
  · exact ⟨hinner.1, hdepth hinner.2⟩

theorem located (loc : Loc) {m : EvalM α} (hm : Unminding m) :
    Unminding (EvalM.located loc m) := by
  intro s
  have hinner := hm s
  unfold EvalM.located
  generalize m s = r at hinner ⊢
  generalize m s.unwatched = r' at hinner ⊢
  rcases r with ⟨a, t⟩ | ⟨f | _, t⟩ <;> rcases r' with ⟨a', t'⟩ | ⟨f' | _, t'⟩ <;> simp_all

end EvalM.Unminding

/-! ## 3. Evaluations -/

theorem lasting_unminding : Lasting fun _ _ act => EvalM.Unminding act where
  pure _ _ := rfl
  fail _ _ := rfl
  outOfFuel _ := rfl
  bind := .bind
  look _ hk s := hk s.view s
  bindName _ _ _ := rfl
  put _ _ := rfl
  probe _ _ := .change fun _ => rfl
  inside _ _ _ _ hk := .bind (fun _ => rfl) hk
  observed name args _ hm := .observed name args hm
  nested loc _ hm := .nested (.bind (.checkDepth loc) fun _ => hm)
  located loc _ hm := .located loc hm

/-- **An evaluation does not mind observers**: without them it ends in the same way, in the same
    session but for what they have noted. -/
theorem eval_unwatched (n : Nat) (env : FrameId) (form : Value) (s : Session) :
    Answer.unwatched ((ofFuel n).eval env form s.unwatched) =
      Answer.unwatched ((ofFuel n).eval env form s) := (lasting_unminding.ofFuel n).1 env form s

end SmallLisp
