import SmallLisp.Proofs.Eval.Routine

/-!
# More fuel, same answer

Fuel only bounds how deeply evaluations nest. An evaluation that ends with some fuel, be it with a
value or with a fault, ends in the same way with more (`Routine.stable`).
-/

namespace SmallLisp

open EvalM Evaluator

/-! ## 1. Answers -/

/-- The evaluation did not stop for want of fuel. -/
def Finished {α : Type} : EStateM.Result Stop Session α → Prop
  | .error .outOfFuel _ => False
  | _ => True

/-- Where `m` finishes, `m'` gives the same answer. -/
def EvalM.Below {α : Type} (m m' : EvalM α) : Prop := ∀ s, Finished (m s) → m' s = m s

namespace EvalM.Below

theorem refl {α : Type} (m : EvalM α) : m.Below m := fun _ _ => rfl

theorem trans {α : Type} {m m' m'' : EvalM α} (h : m.Below m') (h' : m'.Below m'') :
    m.Below m'' := by
  intro s hs
  have e := h s hs
  rw [← e] at hs
  rw [h' s hs, e]

theorem bind {α β : Type} {m m' : EvalM α} {k k' : α → EvalM β} (hm : m.Below m')
    (hk : ∀ a, (k a).Below (k' a)) : (m >>= k).Below (m' >>= k') := by
  intro s hs
  change Finished (EStateM.bind m k s) at hs
  show EStateM.bind m' k' s = EStateM.bind m k s
  unfold EStateM.bind at hs ⊢
  cases h : m s with
  | ok a s' =>
    rw [h] at hs
    rw [hm s (by rw [h]; trivial), h]
    exact hk a s' hs
  | error e s' =>
    rw [h] at hs
    rw [hm s (by rw [h]; cases e <;> exact hs), h]

theorem observed (name : Text) (args : List Value) {m m' : EvalM Value} (h : m.Below m') :
    (EvalM.observed name args m).Below (EvalM.observed name args m') :=
  bind (refl _) fun _ => bind h fun _ => refl _

theorem nested {α : Type} {m m' : EvalM α} (h : m.Below m') :
    (EvalM.nested m).Below (EvalM.nested m') := by
  intro s hs
  unfold EvalM.nested at hs ⊢
  cases hms : m { s with depth := s.depth + 1 } with
  | ok a s' => rw [h _ (by rw [hms]; trivial), hms]
  | error e s' =>
    rw [hms] at hs
    rw [h _ (by rw [hms]; cases e <;> exact hs), hms]

theorem located {α : Type} (loc : Loc) {m m' : EvalM α} (h : m.Below m') :
    (EvalM.located loc m).Below (EvalM.located loc m') := by
  intro s hs
  unfold EvalM.located at hs ⊢
  cases hms : m s with
  | ok a s' => rw [h s (by rw [hms]; trivial), hms]
  | error e s' =>
    rw [hms] at hs
    rw [h s (by rw [hms]; cases e <;> exact hs), hms]

end EvalM.Below

/-! ## 2. Levels -/

/-- A routine gives the same answers when its evaluator gives more. -/
theorem Routine.mono {ev ev' : Evaluator}
    (heval : ∀ env form, (ev.eval env form).Below (ev'.eval env form))
    (happly : ∀ env f vals, (ev.apply env f vals).Below (ev'.apply env f vals)) {applies : Prop}
    {env : FrameId} {α : Type} {m : Evaluator → EvalM α} (h : Routine applies env m) :
    (m ev).Below (m ev') := by
  induction h with
  | pure a => exact .refl _
  | fail f => exact .refl _
  | bind _ _ ihm ihk => exact .bind ihm ihk
  | look k _ ihk => exact .bind (.refl _) fun s => ihk s.view
  | bindName name v => exact .refl _
  | put out => exact .refl _
  | probe name args => exact .refl _
  | eval form => exact heval _ form
  | apply _ f vals => exact happly _ f vals
  | inside home name bindings _ ihk => exact .bind (.refl _) ihk
  | observed name args _ ih => exact .observed name args ih
  | nested loc _ ih => exact .nested (.bind (.refl _) fun _ => ih)
  | located loc _ ih => exact .located loc ih

theorem ofFuel_below_succ (n : Nat) :
    (∀ env form, ((ofFuel n).eval env form).Below ((ofFuel (n + 1)).eval env form)) ∧
      ∀ env f vals, ((ofFuel n).apply env f vals).Below ((ofFuel (n + 1)).apply env f vals) := by
  induction n with
  | zero => exact ⟨fun _ _ _ hs => False.elim hs, fun _ _ _ _ hs => False.elim hs⟩
  | succ n ih =>
    exact ⟨fun _ form => (routine_evalForm trivial form).mono ih.1 ih.2,
      fun _ f vals => (routine_applyValues f (fun _ => trivial) vals).mono ih.1 ih.2⟩

/-- **A routine that finishes with some fuel gives the same answer with more.** -/
theorem Routine.stable {applies : Prop} {env : FrameId} {α : Type} {m : Evaluator → EvalM α}
    (h : Routine applies env m) {n n' : Nat} (hn : n ≤ n') :
    (m (ofFuel n)).Below (m (ofFuel n')) := by
  induction hn with
  | refl => exact .refl _
  | step _ ih => exact ih.trans (h.mono (ofFuel_below_succ _).1 (ofFuel_below_succ _).2)

end SmallLisp
