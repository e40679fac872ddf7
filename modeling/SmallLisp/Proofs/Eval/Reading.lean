import SmallLisp.Proofs.Eval.Applying
import SmallLisp.Proofs.Node.Concatenation
import SmallLisp.Proofs.Session.History

/-!
# Reading a text and evaluating it

A program can read a text and evaluate what it reads as. In a session without a limit that comes to
the same as running the text in the session.

* `same_evalRead`: the call that reads a text and evaluates it does what the evaluation of the form
  does that the text reads as, up to the bookkeeping;
* `evalText_of_evalForm`, `evalForm_of_evalText`: so does the run of the text, though it puts one
  expression into a sequence and the form does not.
-/

namespace SmallLisp

open EvalM Evaluator Session

/-! ## 1. The two ways -/

/-- The call that reads a text and evaluates what it reads as. It was not read itself. -/
def evalRead (src : Text) : Value :=
  .list [.atom "eval" Loc.unknown,
    .list [.atom "read" Loc.unknown, .string src] Loc.unknown] Loc.unknown

/-- The form that a text reads as. -/
def readText (src : Text) : EvalM Value :=
  match parseChars (Utf8.decode src) with
  | .ok ns => pure (formOf ns)
  | .error e => fail (.read e)

/-- Evaluates the form that a text reads as. -/
def Evaluator.evalFormOf (ev : Evaluator) (env : FrameId) (src : Text) : EvalM Value :=
  match parseChars (Utf8.decode src) with
  | .ok ns => ev.eval env (formOf ns)
  | .error e => fail (.read e)

/-- The run of a text ends with this answer, with whatever fuel from some on. -/
def Session.Runs (s : Session) (src : Text) (r : Answer Value) : Prop :=
  Finished r ∧ ∃ n, ∀ n', n ≤ n' → evalText n' src s = r

theorem evalFormOf_eq (ev : Evaluator) (env : FrameId) (src : Text) :
    ev.evalFormOf env src = readText src >>= ev.eval env := by
  unfold evalFormOf readText
  split <;> rfl

theorem routine_readText (env : FrameId) (src : Text) :
    Routine True env fun _ => readText src := by
  unfold readText
  split
  · exact .pure _
  · exact .fail _

theorem evalText_eq (n : Nat) (src : Text) (s : Session) :
    evalText n src s = match parseChars (Utf8.decode src) with
      | .ok ns => (ofFuel n).eval s.root (.sequence (Value.ofNodes ns)) s
      | .error e => .error (.fault (.read e)) s := by
  cases hread : parseChars (Utf8.decode src) with
  | ok ns => exact evalText_of_ok (parse_eq_ok.mpr ⟨ns, hread, rfl⟩) n s
  | error e => exact evalText_of_error (parse_eq_error.mpr hread) n s

/-! ## 2. Running a text -/

section Text

variable {n : Nat} {src : Text} {s : Session}

/-- Where the form that a text reads as is evaluated to the end, the run of the text ends alike. -/
theorem evalText_of_evalForm (h : Finished ((ofFuel n).evalFormOf s.root src s)) :
    evalText (n + 1) src s = (ofFuel n).evalFormOf s.root src s := by
  rw [evalText_eq]
  unfold evalFormOf at h ⊢
  cases hread : parseChars (Utf8.decode src) with
  | error e => rfl
  | ok ns =>
    rw [hread] at h
    match ns with
    | [] =>
      cases n with
      | zero => exact h.elim
      | succ n => rfl
    | [m] => rfl
    | m :: m' :: more =>
      have hform : Routine True s.root fun ev => ev.eval s.root (formOf (m :: m' :: more)) :=
        .eval _
      exact hform.stable (Nat.le_succ n) s h

/-- And where the run of a text ends, so does the evaluation of the form. -/
theorem evalForm_of_evalText (h : Finished (evalText n src s)) :
    (ofFuel n).evalFormOf s.root src s = evalText n src s := by
  rw [evalText_eq] at h ⊢
  unfold evalFormOf
  cases hread : parseChars (Utf8.decode src) with
  | error e => rfl
  | ok ns =>
    rw [hread] at h
    cases n with
    | zero => exact h.elim
    | succ n =>
      match ns with
      | [] => rfl
      | [m] =>
        have hform : Routine True s.root fun ev => ev.eval s.root (.ofNode m) := .eval _
        exact hform.stable (Nat.le_succ n) s h
      | m :: m' :: more => rfl

theorem runs_of_fuel {r : Answer Value} (hr : evalText n src s = r) (h : Finished r) :
    s.Runs src r := by
  subst hr
  refine ⟨h, n, fun n' hn' => ?_⟩
  rw [evalText_eq] at h ⊢
  rw [evalText_eq]
  cases hread : parseChars (Utf8.decode src) with
  | error e => rfl
  | ok ns =>
    rw [hread] at h
    have hform : Routine True s.root fun ev => ev.eval s.root (.sequence (Value.ofNodes ns)) :=
      .eval _
    exact hform.stable hn' s h

end Text

/-! ## 3. Reading and evaluating -/

/-- A place that is not known says nothing. -/
theorem located_unknown {α : Type} (act : EvalM α) : located Loc.unknown act = act := by
  have hfault (f : Fault) : f.locate Loc.unknown = f := by
    cases f with
    | eval e =>
      show Fault.eval (e.locate Loc.unknown) = _
      unfold EvalError.locate
      split
      · rename_i hloc
        rw [← hloc]
      · rfl
    | read e => rfl
    | malformed => rfl
  funext s
  unfold located
  split
  · rename_i h
    rw [h, hfault]
  · rfl

theorem Store.get?_of_local? {st : Store} {i : FrameId} {name : Text} {v : Value}
    (h : st.local? i name = some v) : st.get? i name = some v := by
  obtain ⟨f, hf, -⟩ := Option.bind_eq_some_iff.mp h
  unfold get? chain chainUpTo
  rw [hf]
  dsimp only
  split <;> simp [h]

section Call

variable {s t : Session} (hst : s.Equiv t)

include hst

/-- A call without a place of a native function by its name does what the function does. -/
theorem same_call {env : FrameId} {name : Text} {p : Primitive}
    (hname : s.store.get? env name = some (.native (.primitive p))) (n : Nat) (args : List Value)
    {r : Answer Value}
    (h : ∀ u : Session, s.Equiv u → Answer.Same r ((ofFuel (n + 1)).runPrimitive env p args u)) :
    Answer.Same r
      ((ofFuel (n + 2)).eval env (.list (.atom name Loc.unknown :: args) Loc.unknown) t) := by
  rw [hst.store] at hname
  rw [eval_call (.inl hst.unlimited') (.atom hname), located_unknown]
  refine .nested_right (.observed_right _ args (h _ ?_))
  exact (hst.withDepth _).announce _ args

/-- The call of `read` reads. -/
theorem same_readCall {env : FrameId}
    (hread : s.store.get? env "read" = some (.native (.primitive .read))) (n : Nat) (src : Text) :
    Answer.Same (readText src s)
      ((ofFuel (n + 2)).eval env
        (.list [.atom "read" Loc.unknown, .string src] Loc.unknown) t) := by
  refine same_call hst hread n _ fun u hu => ?_
  show Answer.Same (readText src s) (readText src u)
  exact (routine_readText env src).same n hu

/-- **The call that reads a text and evaluates it** does what the evaluation of the form does that
    the text reads as. -/
theorem same_evalRead {env : FrameId}
    (heval : s.store.get? env "eval" = some (.native (.primitive .eval)))
    (hread : s.store.get? env "read" = some (.native (.primitive .read))) (n : Nat) (src : Text) :
    Answer.Same ((ofFuel (n + 2)).evalFormOf env src s)
      ((ofFuel (n + 3)).eval env (evalRead src) t) := by
  refine same_call hst heval (n + 1) _ fun u hu => ?_
  rw [evalFormOf_eq]
  refine (same_readCall hu hread n src).bind fun form _ _ hw => ?_
  have hform : Routine True env fun ev => ev.eval env form := .eval form
  exact hform.same (n + 2) hw

end Call

/-! ## 4. The result -/

/-- **To evaluate what a text reads as is to run the text.** In a session without a limit in which
    `eval` and `read` are what they are at first, the call that reads a text and evaluates it has an
    answer if and only if the run of the text has, and it is the same: the same value, or the same
    error at the same place, after the same printed text and with the same frames. -/
theorem eval_of_read {s : Session} (hlimit : s.limit = 0)
    (heval : s.store.local? s.root "eval" = some (.native (.primitive .eval)))
    (hread : s.store.local? s.root "read" = some (.native (.primitive .read))) (src : Text) :
    (∀ r, s.Runs src r → ∃ r', s.Answers s.root (evalRead src) r' ∧ Answer.Same r r') ∧
      ∀ r', s.Answers s.root (evalRead src) r' → ∃ r, s.Runs src r ∧ Answer.Same r r' := by
  have hsame := same_evalRead (.refl hlimit) (Store.get?_of_local? heval)
    (Store.get?_of_local? hread)
  refine ⟨fun r hr => ?_, fun r' hr' => ?_⟩
  · obtain ⟨hfinished, n, hn⟩ := hr
    have hrun := hn (n + 2) (by omega)
    have hform : (ofFuel (n + 2)).evalFormOf s.root src s = r := by
      rw [evalForm_of_evalText (by rwa [hrun]), hrun]
    have hcall := hsame n src
    rw [hform] at hcall
    exact ⟨_, answers_of_fuel rfl (hcall.finished hfinished), hcall⟩
  · obtain ⟨hfinished, n, hn⟩ := hr'
    have hcall := hsame n src
    rw [hn (n + 3) (by omega)] at hcall
    have hform := hcall.symm.finished hfinished
    exact ⟨_, runs_of_fuel (evalText_of_evalForm hform) hform, hcall⟩

/-- Prints something and then goes wrong, on the second line. -/
def spoiltText : Text := "(println \"hey\")\n(car \"x\")"

/-- A session without a limit. -/
def freeSession : Session := (fresh "0.0.0").withLimit 0

/-- The answer to the run of the text in it. -/
@[irreducible] def spoiltAnswer : Answer Value := evalText 20 spoiltText freeSession

theorem spoiltAnswer_eq :
    spoiltAnswer.fault? =
      some (.eval ⟨⟨2, 1⟩, .typeMismatch "car" "list" "string \"x\""⟩) ∧
    spoiltAnswer.session.printedText = "hey\n" := by decide +kernel

theorem eval_of_read_spoilt :
    ∃ t t', freeSession.Runs spoiltText (.error (.fault
        (.eval ⟨⟨2, 1⟩, .typeMismatch "car" "list" "string \"x\""⟩)) t) ∧
      freeSession.Answers freeSession.root (evalRead spoiltText) (.error (.fault
        (.eval ⟨⟨2, 1⟩, .typeMismatch "car" "list" "string \"x\""⟩)) t') ∧
      t'.printedText = "hey\n" ∧ t'.store = t.store := by
  obtain ⟨hfault, hprinted⟩ := spoiltAnswer_eq
  obtain ⟨t, ht⟩ := Answer.exists_of_fault? hfault
  rw [ht] at hprinted
  unfold spoiltAnswer at ht
  have hrun := runs_of_fuel ht trivial
  obtain ⟨r', hr', hsame⟩ := (eval_of_read rfl rfl rfl spoiltText).1 _ hrun
  cases hsame with
  | error _ hequiv =>
    exact ⟨t, _, hrun, hr', hequiv.printed.symm.trans hprinted, hequiv.store.symm⟩

end SmallLisp
