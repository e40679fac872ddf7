import SmallLisp.Proofs.Eval.Checks
import SmallLisp.Proofs.Session.Nesting

/-!
# How many applications are in progress

A session counts the applications in progress. The count is the same after every evaluation as
before it, so between programs it is zero; and in a program that runs under a limit, no function and
no observer ever sees a count of zero or one beyond the limit.

What a function or an observer sees is found out by checks (`checking`). A check that does nothing
as long as the count is in order does nothing at all (`agree_checking`), whatever it would do
otherwise.
-/

namespace SmallLisp

open EvalM Evaluator Session

/-! ## 1. Actions at one depth -/

/-- The session has this limit, and so many applications are in progress. -/
def Session.IsAt (limit depth : Nat) (s : Session) : Prop := s.limit = limit ∧ s.depth = depth

theorem stable_isAt (limit depth : Nat) : Session.Stable (fun _ => True) (IsAt limit depth) where
  report halike _ hs := ⟨halike.limit.trans hs.1, halike.depth.trans hs.2⟩
  bindName _ _ _ _ hs := hs
  pushFrame _ _ _ _ hs := hs

/-- A call is one deeper, if the limit allows that. -/
theorem agree_nested {limit depth : Nat} (hpos : 0 < limit) {m m' : EvalM Value}
    (h : depth < limit → EvalM.AgreeOn (fun _ => True) (IsAt limit (depth + 1)) ([·]) m m')
    (loc : Loc) :
    EvalM.AgreeOn (fun _ => True) (IsAt limit depth) ([·])
      (nested (checkDepth loc >>= fun _ => m)) (nested (checkDepth loc >>= fun _ => m')) := by
  have hin (s : Session) (hs : s.IsAt limit depth) :
      IsAt limit (depth + 1) { s with depth := s.depth + 1 } := ⟨hs.1, congrArg (· + 1) hs.2⟩
  have hout (t : Session) (ht : t.IsAt limit (depth + 1)) :
      IsAt limit depth { t with depth := t.depth - 1 } := ⟨ht.1, congrArg (· - 1) ht.2⟩
  refine .nested hin hout fun s hs => ?_
  obtain ⟨hlimit, hdepth⟩ := hs
  by_cases hroom : depth < limit
  · have hcheck : checkDepth loc s = .ok () s := checkDepth_ok loc (by omega)
    rw [bind_of_ok hcheck, bind_of_ok hcheck]
    exact h hroom s ⟨hlimit, hdepth⟩
  · have hcheck := checkDepth_exceeded loc (show 0 < s.limit by omega)
      (show s.limit < s.depth by omega)
    rw [bind_of_error hcheck, bind_of_error hcheck]
    exact ⟨rfl, .error ⟨hlimit, hdepth⟩⟩

/-! ## 2. Levels -/

/-- The evaluators agree wherever the limit allows applications, and apply functions to values alike
    inside an application. -/
structure Evaluator.AgreeUnder (limit : Nat) (ev ev' : Evaluator) : Prop where
  eval {depth : Nat} : depth ≤ limit → ∀ env form,
    EvalM.AgreeOn (fun _ => True) (IsAt limit depth) ([·]) (ev.eval env form) (ev'.eval env form)
  inside {depth : Nat} : 1 ≤ depth → depth ≤ limit →
    ev.AgreeOn (fun _ => True) (IsAt limit depth) ev'

section Levels

variable {limit depth : Nat} {ev ev' : Evaluator} {check : EvalM Unit}
  (hcheck : ∀ s : Session, 1 ≤ s.depth → s.depth ≤ limit → check s = .ok () s)

include hcheck

/-- Inside an application the checks do nothing. -/
theorem check_isAt (hlow : 1 ≤ depth) (hhigh : depth ≤ limit) (s : Session)
    (hs : s.IsAt limit depth) : check s = .ok () s := hcheck s (hs.2 ▸ hlow) (hs.2 ▸ hhigh)

theorem agreeUnder_evalForm (hev : ev.AgreeUnder limit ev') (hpos : 0 < limit)
    (hhigh : depth ≤ limit) (env : FrameId) (form : Value) :
    EvalM.AgreeOn (fun _ => True) (IsAt limit depth) ([·])
      ((Wrapping.checking check).evalForm ev env form) (ev'.evalForm env form) := by
  refine agree_evalForm (stable_isAt limit depth) Value.closed_true (fun _ _ _ _ _ => trivial)
    (fun env form _ => hev.eval hhigh env form) ?_ trivial
  intro head args loc _ hargs
  refine agree_nested hpos (fun hroom => (hev.eval hroom env head).bind fun f _ => ?_) loc
  have hlow : 1 ≤ depth + 1 := Nat.le_add_left 1 depth
  exact (agree_applyForms (stable_isAt limit (depth + 1)) Value.closed_true
    (check_isAt hcheck hlow hroom) (hev.inside hlow hroom) env loc trivial hargs).located loc

/-- **A check that does nothing at depths from one to the limit does nothing.** -/
theorem agree_checking (hpos : 0 < limit) (n : Nat) :
    (checking check n).AgreeUnder limit (ofFuel n) := by
  induction n with
  | zero => exact ⟨fun _ _ _ => .throw _, fun _ _ => ⟨fun _ _ _ => .throw _,
      fun _ _ _ _ _ => .throw _⟩⟩
  | succ n ih =>
    refine ⟨fun hhigh env form => agreeUnder_evalForm hcheck ih hpos hhigh env form,
      fun hlow hhigh => ⟨fun env form _ => agreeUnder_evalForm hcheck ih hpos hhigh env form,
        fun env f vals hf hvals => ?_⟩⟩
    exact agree_applyValues (stable_isAt limit _) Value.closed_true (check_isAt hcheck hlow hhigh)
      (ih.inside hlow hhigh) env hf hvals

end Levels

/-! ## 3. Sessions -/

/-- Whatever a host has done, no application is in progress after it. -/
theorem depth_of_past {version : Text} {s : Session} (h : (fresh version).Past s) :
    s.depth = 0 := by
  induction h with
  | refl => rfl
  | @tail t u _ hdeed ih =>
    obtain ⟨fine, hdeed⟩ := hdeed
    cases hdeed with
    | run fuel src => exact (alike_evalText fuel src t).depth.trans ih
    | eval fuel env form => exact (progress_settings.eval fuel env form t).depth.trans ih
    | apply fuel env f vals => exact (progress_settings.apply fuel env f vals t).depth.trans ih
    | countCalls =>
      unfold countCalls
      split <;> exact ih
    | keepJournal | addGlobal | clear | adjust | print => exact ih

/-- A program starts outside every application. -/
theorem runText_checking {s : Session} (hdepth : s.depth = 0) (hpos : 0 < s.limit)
    {check : EvalM Unit}
    (hcheck : ∀ u : Session, 1 ≤ u.depth → u.depth ≤ s.limit → check u = .ok () u) (n : Nat)
    (src : Text) : (checking check n).runText src s = evalText n src s := by
  cases hparse : parse src with
  | ok m =>
    rw [evalText_of_ok hparse, runText, hparse]
    exact ((agree_checking hcheck hpos n).eval (Nat.zero_le _) s.root (.ofNode m) s
      ⟨rfl, hdepth⟩).1
  | error e =>
    rw [evalText_of_error hparse, runText, hparse]
    rfl

/-! ## 4. The result -/

/-- **The count of applications in progress is exact.** It is the same after every evaluation and
    every application to values as before, however they end. So in a session it is zero whatever has
    been done with it; and in a program that runs under a limit, a check that does nothing as long
    as the count is between one and the limit does nothing, though it is made before observers are
    told anything and before any function runs. -/
theorem depth_exact :
    (∀ n env form s, (((ofFuel n).eval env form).after s).depth = s.depth) ∧
    (∀ n env f vals s, (((ofFuel n).apply env f vals).after s).depth = s.depth) ∧
    (∀ version s, (fresh version).Past s → s.depth = 0 ∧ (0 < s.limit → ∀ check : EvalM Unit,
      (∀ u : Session, 1 ≤ u.depth → u.depth ≤ s.limit → check u = .ok () u) →
        ∀ n src, (checking check n).runText src s = evalText n src s)) ∧
    ∀ n, checking (pure ()) n = ofFuel n := by
  refine ⟨fun n env form s => (progress_settings.eval n env form s).depth,
    fun n env f vals s => (progress_settings.apply n env f vals s).depth,
    fun version s hpast => ?_, checking_pure⟩
  have hdepth := depth_of_past hpast
  exact ⟨hdepth, fun hpos check hcheck n src => runText_checking hdepth hpos hcheck n src⟩

/-- A check that gives up outside of every application and beyond a depth of two. -/
def shallowCheck : EvalM Unit := do
  let s ← get
  if 1 ≤ s.depth ∧ s.depth ≤ 2 then pure () else fail .malformed

/-- A session with a limit of two, in which the value of a call was an argument of another call
    before one went too deep. -/
def shallowSession : Session :=
  (evalText 50 "(defun twice (x) (list x x)) (twice (car '(a))) (list (list (twice \"b\")))").after
    { fresh "0.0.0" with limit := 2 }

/-- A program that calls a closure, and a native function inside that. -/
def shallowSource : Text := "(apply twice '(c)) (twice (list))"

theorem depth_exact_shallow :
    (fresh "0.0.0").Past shallowSession ∧ shallowSession.depth = 0 ∧ 0 < shallowSession.limit ∧
      (checking shallowCheck 50).runText shallowSource shallowSession =
        evalText 50 shallowSource shallowSession ∧
      Answer.isOk (evalText 50 shallowSource shallowSession) = true ∧
      Answer.isOk ((checking (fail .malformed) 50).runText shallowSource shallowSession) =
        false := by
  have hpast : (fresh "0.0.0").Past shallowSession :=
    .tail (.single ⟨_, .adjust _ 2 false false .plain⟩) ⟨_, .run 50 _ _⟩
  have hlimit : shallowSession.limit = 2 := (alike_evalText 50 _ _).limit
  have hpos : 0 < shallowSession.limit := by omega
  have hcheck (u : Session) (hlow : 1 ≤ u.depth) (hhigh : u.depth ≤ shallowSession.limit) :
      shallowCheck u = .ok () u := by
    show (if 1 ≤ u.depth ∧ u.depth ≤ 2 then pure () else fail .malformed : EvalM Unit) u = _
    rw [if_pos ⟨hlow, hlimit ▸ hhigh⟩]
    rfl
  obtain ⟨-, -, hsessions, -⟩ := depth_exact
  obtain ⟨hdepth, hrun⟩ := hsessions "0.0.0" shallowSession hpast
  exact ⟨hpast, hdepth, hpos, hrun hpos shallowCheck hcheck 50 _, by decide +kernel,
    by decide +kernel⟩

end SmallLisp
