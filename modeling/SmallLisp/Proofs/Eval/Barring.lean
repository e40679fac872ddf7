import SmallLisp.Proofs.Eval.Limit
import SmallLisp.Proofs.Eval.Wrapped

/-!
# Evaluation without some functions

Which native functions a run comes to apply is not recorded anywhere. It is found out by taking
functions away: `barring barred n` evaluates like `ofFuel n`, but where a barred function is to be
applied it has no answer, as if its fuel had run out.

* `barring_below`: where it has an answer, that is the answer of the evaluation with all functions.
* `Session.AnswersWithout`: the evaluation ends with an answer without the barred functions, since
  it never comes to apply one.
-/

namespace SmallLisp

open EvalM Evaluator

/-! ## 1. The evaluator -/

/-- Has no answer if the function is barred, and else does what the action does. -/
def Evaluator.sparing (barred : Native → Bool) (f : Value) (act : EvalM Value) : EvalM Value :=
  match f with
  | .native n => if barred n then throw .outOfFuel else act
  | _ => act

/-- No barred function is applied. -/
def Wrapping.barring (barred : Native → Bool) : Wrapping where
  call form f act := located form.loc (sparing barred f act)
  values := sparing barred
  run := observed

namespace Evaluator

/-- The evaluator with so many levels that applies no barred function. -/
def barring (barred : Native → Bool) : Nat → Evaluator := (Wrapping.barring barred).ofFuel

/-! ## 2. Its answers -/

variable {barred : Native → Bool}

theorem sparing_native {n : Native} (h : barred n = false) (act : EvalM Value) :
    sparing barred (.native n) act = act := by
  show (if barred n then throw .outOfFuel else act) = act
  rw [h]
  rfl

theorem sparing_barred {n : Native} (h : barred n = true) (act : EvalM Value) :
    sparing barred (.native n) act = throw .outOfFuel := by
  show (if barred n then throw .outOfFuel else act) = throw .outOfFuel
  rw [h]
  rfl

theorem sparing_below (f : Value) (act : EvalM Value) : (sparing barred f act).Below act := by
  cases f with
  | native n =>
    cases hn : barred n with
    | false =>
      rw [sparing_native hn]
      exact .refl act
    | true =>
      rw [sparing_barred hn]
      exact fun s hs => False.elim hs
  | _ => exact .refl act

section

variable (barred) (ev : Evaluator) (env : FrameId) (f : Value)

theorem applyForms_barring (loc : Loc) (args : List Value) :
    (Wrapping.barring barred).applyForms ev env loc f args = ev.applyForms env loc f args :=
  Wrapping.applyForms_of_observed rfl ev env f loc args

theorem applyValues_barring (vals : List Value) :
    (Wrapping.barring barred).applyValues ev env f vals =
      sparing barred f (ev.applyValues env f vals) :=
  Wrapping.applyValues_of_observed rfl ev env f vals

end

theorem evalForm_barring_below (ev : Evaluator) (env : FrameId) (form : Value) :
    ((Wrapping.barring barred).evalForm ev env form).Below (ev.evalForm env form) := by
  unfold Wrapping.evalForm
  split
  · rename_i head args loc
    refine .nested (.bind (.refl _) fun _ => .bind (.refl _) fun f => .located loc ?_)
    rw [applyForms_barring]
    exact sparing_below f _
  · exact .refl _

/-- **Where the evaluator without the barred functions has an answer, it is the answer.** -/
theorem barring_below (n : Nat) :
    (∀ env form, ((barring barred n).eval env form).Below ((ofFuel n).eval env form)) ∧
      ∀ env f vals, ((barring barred n).apply env f vals).Below
        ((ofFuel n).apply env f vals) := by
  induction n with
  | zero => exact ⟨fun _ _ => .refl _, fun _ _ _ => .refl _⟩
  | succ n ih =>
    refine ⟨fun env form => ?_, fun env f vals => ?_⟩
    · have hlevel : Routine True env fun ev => ev.evalForm env form := routine_evalForm trivial form
      exact (evalForm_barring_below _ env form).trans (hlevel.mono ih.1 ih.2)
    · have hlevel : Routine True env fun ev => ev.applyValues env f vals :=
        routine_applyValues f (fun _ => trivial) vals
      show ((Wrapping.barring barred).applyValues (barring barred n) env f vals).Below _
      rw [applyValues_barring]
      exact (sparing_below f _).trans (hlevel.mono ih.1 ih.2)

end Evaluator

/-! ## 3. Answers without some functions -/

theorem ok_of_bind {α β : Type} {m : EvalM α} {k : α → EvalM β} {s t : Session} {b : β}
    (h : (m >>= k) s = .ok b t) : ∃ a u, m s = .ok a u ∧ k a u = .ok b t := by
  cases hm : m s with
  | ok a u =>
    rw [bind_of_ok hm] at h
    exact ⟨a, u, rfl, h⟩
  | error e u =>
    rw [bind_of_error hm] at h
    cases h

/-- The evaluation ended with a value. -/
def Answer.isOk {α : Type} : Answer α → Bool
  | .ok _ _ => true
  | .error _ _ => false

theorem Answer.exists_of_isOk {α : Type} {r : Answer α} (h : r.isOk = true) :
    ∃ a s, r = .ok a s := by
  cases r with
  | ok a s => exact ⟨a, s, rfl⟩
  | error e s => cases h

theorem Answer.finished_of_isOk {α : Type} {r : Answer α} (h : r.isOk = true) : Finished r := by
  obtain ⟨a, s, rfl⟩ := exists_of_isOk h
  trivial

/-- The evaluation of a form ends with this answer, and never comes to apply a barred function. -/
def Session.AnswersWithout (s : Session) (barred : Native → Bool) (env : FrameId) (form : Value)
    (r : Answer Value) : Prop := Finished r ∧ ∃ n, (barring barred n).eval env form s = r

theorem eval_of_barring {barred : Native → Bool} {n : Nat} {env : FrameId} {form : Value}
    {s : Session} {r : Answer Value} (h : (barring barred n).eval env form s = r)
    (hr : Finished r) : (ofFuel n).eval env form s = r := by
  subst h
  exact (barring_below n).1 env form s hr

end SmallLisp
