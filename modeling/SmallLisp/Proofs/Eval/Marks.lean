import SmallLisp.Proofs.Eval.Applying
import SmallLisp.Proofs.Eval.Keeping
import SmallLisp.Proofs.Session.Forest

/-!
# The marks of `apply` stay inside

A native function that is applied to values gets each of them under a mark, as a quote, so that
evaluating it again gives the value. The mark is meant for that function only: no value that comes
out of an evaluation has one, and none that is bound in a frame.

* `Value.closed_unmarked`: evaluation does not lead from values without marks to one with a mark;
* `runPrimitive_evaluated`: a special form that is applied to values does with the values what
  `Primitive.onValues` says;
* `Session.Life.unmarked`: in no state of a session is a value with a mark bound.
-/

namespace SmallLisp

open EvalM Evaluator Session

/-! ## 1. Values without a mark -/

mutual

/-- No quote in the value is marked as one that `apply` made. -/
def Value.unmarked : Value → Bool
  | .list items _ => unmarkedAll items
  | .sequence body => unmarkedAll body
  | .closure _ _ body _ => unmarkedAll body
  | .quote v applied => !applied && v.unmarked
  | .unit | .number _ | .string _ | .bool _ | .atom _ _ | .native _ => true

/-- No quote in the values is. -/
def Value.unmarkedAll : List Value → Bool
  | [] => true
  | v :: vs => v.unmarked && unmarkedAll vs

end

namespace Value

theorem unmarkedAll_iff {vs : List Value} :
    unmarkedAll vs = true ↔ ∀ v ∈ vs, v.unmarked = true := by
  induction vs with
  | nil => simp [unmarkedAll]
  | cons v vs ih => simp [unmarkedAll, ih]

theorem unmarked_quoteIf (i : NodeInfo) (v : Value) : (quoteIf i v).unmarked = v.unmarked := by
  unfold quoteIf
  split
  · simp [unmarked]
  · rfl

mutual

theorem unmarked_ofNode : ∀ n : Node, (ofNode n).unmarked = true
  | .unit _ | .atom _ _ | .string _ _ | .number _ _ | .bool _ _ => by
    simp [ofNode, unmarked_quoteIf, unmarked]
  | .list _ items | .progn _ items => by
    simp [ofNode, unmarked_quoteIf, unmarked, unmarkedAll_ofNodes items]

theorem unmarkedAll_ofNodes : ∀ ns : List Node, unmarkedAll (ofNodes ns) = true
  | [] => by simp [ofNodes, unmarkedAll]
  | n :: ns => by simp [ofNodes, unmarkedAll, unmarked_ofNode n, unmarkedAll_ofNodes ns]

end

mutual

theorem unmarked_toValue {d : Datum} {v : Value} (h : d.toValue = .ok v) : v.unmarked = true := by
  match d with
  | .null | .bool _ | .float64 _ | .float32 _ | .int64 _ | .int _ | .uint64 _ | .string _
  | .bytes _ =>
    cases h
    rfl
  | .array items =>
    rw [Datum.toValue] at h
    split at h
    · rename_i vs hvs
      cases h
      exact unmarkedAll_toValues hvs
    · cases h
  | .map entries =>
    unfold Datum.toValue at h
    split at h
    case h_11 key name hentries =>
      split at h
      · cases h
        rfl
      · cases h
    case h_12 => cases h
    all_goals cases ‹Datum.map entries = _›
  | .int8 _ | .time | .extension => cases h

theorem unmarkedAll_toValues {ds : List Datum} {vs : List Value} (h : Datum.toValues ds = .ok vs) :
    unmarkedAll vs = true := by
  match ds with
  | [] =>
    cases h
    rfl
  | d :: ds =>
    rw [Datum.toValues] at h
    split at h
    · cases h
    · rename_i v hv
      split at h
      · cases h
      · rename_i vs hvs
        cases h
        simp [unmarkedAll, unmarked_toValue hv, unmarkedAll_toValues hvs]

end

/-- **Evaluation does not lead to a value with a mark.** -/
theorem closed_unmarked : Value.Closed fun v => v.unmarked = true where
  unit := rfl
  number _ := rfl
  string _ := rfl
  bool _ := rfl
  list h := unmarkedAll_iff.mpr h
  items h := unmarkedAll_iff.mp h
  closure _ _ _ _ h := unmarkedAll_iff.mpr h
  body h := unmarkedAll_iff.mp h
  forms h := unmarkedAll_iff.mp h
  content h := (Bool.and_eq_true_iff.mp h).2
  node := unmarked_ofNode
  datum h := unmarked_toValue h

end Value

/-! ## 2. Special forms applied to values -/

/-- The value is this truth value. -/
def Value.isBool (b : Bool) : Value → Bool
  | .bool c => c == b
  | _ => false

/-- A connective at values: the first one that is not the truth value it starts from decides. -/
def connectiveOf (op : Text) (start : Bool) (vals : List Value) : EvalM Value :=
  match vals.find? (! Value.isBool start ·) with
  | none => pure (.bool start)
  | some (.bool b) => pure (.bool b)
  | some v => raise (.mismatch op "boolean" v)

/-- What a special form does with values. Nothing is evaluated: what is bound and what is given are
    the values themselves, and so is the body of a closure. -/
def Primitive.onValues (env : FrameId) (p : Primitive) (vals : List Value) :
    Option (EvalM Value) :=
  match p with
  | .quote => some <|
    match vals with
    | [v] => pure v
    | _ => raise (.arity "quote" "1 argument" vals.length)
  | .define => some <|
    match vals with
    | [.atom name loc, v] => do
      checkUnbound env name loc
      bindName env name v
      pure v
    | [w, _] => raise (.mismatch "def" "atom" w)
    | _ => raise (.arity "def" "2 arguments" vals.length)
  | .assign => some <|
    match vals with
    | [.atom name _, v] => do
      bindName env name v
      pure v
    | [w, _] => raise (.mismatch "set!" "atom" w)
    | _ => raise (.arity "set!" "2 arguments" vals.length)
  | .lambda => some <|
    match vals with
    | ps :: body => do
      let names ← EvalM.ofExcept (params "lambda" ps)
      pure (.closure [] names body env)
    | _ => raise (.arity "lambda" "a parameter list" 0)
  | .defun => some <|
    match vals with
    | .atom name loc :: ps :: body => do
      checkUnbound env name loc
      let names ← EvalM.ofExcept (params "defun" ps)
      bindName env name (.closure name names body env)
      pure (.closure name names body env)
    | w :: _ :: _ => raise (.mismatch "defun" "atom" w)
    | _ => raise (.arity "defun" "a name and a parameter list" vals.length)
  | .conditional => some <|
    match vals with
    | [.bool c, a] => pure (if c then a else .unit)
    | [.bool c, a, b] => pure (if c then a else b)
    | [w, _] | [w, _, _] => raise (.mismatch "if" "boolean condition" w)
    | _ => raise (.arity "if" "2 or 3 arguments" vals.length)
  | .sequence => some (pure (vals.getLast?.getD .unit))
  | .connective .and => some (connectiveOf "and" true vals)
  | .connective .or => some (connectiveOf "or" false vals)
  | _ => none

section OnValues

variable {ev : Evaluator} {env : FrameId} (hquote : ∀ v, ev.eval env (.quote v true) = pure v)

@[simp] theorem length_evaluated (vals : List Value) : (evaluated vals).length = vals.length :=
  List.length_map _

@[simp] theorem evaluated_nil : evaluated [] = [] := rfl

@[simp] theorem evaluated_cons (v : Value) (vals : List Value) :
    evaluated (v :: vals) = .quote v true :: evaluated vals := rfl

@[simp] theorem bare_quote (v : Value) : bare (.quote v true) = v := rfl

theorem map_bare_evaluated (vals : List Value) : (evaluated vals).map bare = vals := by
  induction vals with
  | nil => rfl
  | cons v vals ih => simp [ih]

include hquote

theorem evalSequence_evaluated : ∀ vals : List Value,
    ev.evalSequence env (evaluated vals) = pure (vals.getLast?.getD .unit)
  | [] => rfl
  | [v] => hquote v
  | v :: w :: more => by
    show (ev.eval env (.quote v true) >>= fun _ => ev.evalSequence env (evaluated (w :: more))) = _
    rw [hquote, pure_bind, evalSequence_evaluated (w :: more), List.getLast?_cons_cons]

theorem connective_evaluated (op : Text) (stop : Bool) (vals : List Value) :
    ev.connective env op stop (evaluated vals) = connectiveOf op (!stop) vals := by
  induction vals with
  | nil => rfl
  | cons v vals ih =>
    rw [evaluated_cons, connective, hquote, pure_bind]
    cases v with
    | bool b =>
      dsimp only
      by_cases hb : b = stop
      · subst hb
        simp [connectiveOf, Value.isBool]
      · obtain rfl : b = !stop := Bool.eq_not_of_ne hb
        rw [if_neg hb, ih]
        simp [connectiveOf, Value.isBool]
    | _ => rfl

/-- **A special form that runs on marked values does with the values what it is said to do.** -/
theorem runPrimitive_evaluated {p : Primitive} (hp : p.takesForms = true) (vals : List Value) :
    p.onValues env vals = some (ev.runPrimitive env p (evaluated vals)) := by
  -- each form looks at how many arguments there are, and at the kind of the first
  unfold Primitive.onValues runPrimitive
  cases p with
  | conditional =>
    rcases vals with _ | ⟨c, _ | ⟨a, _ | ⟨b, _ | ⟨_, _⟩⟩⟩⟩
    · rfl
    · cases c <;> rfl
    · cases c with
      | bool c => cases c <;> simp [conditional, hquote]
      | _ => simp [conditional, hquote, Primitive.name]
    · cases c with
      | bool c => cases c <;> simp [conditional, hquote]
      | _ => simp [conditional, hquote, Primitive.name]
    · cases c <;> simp [conditional, Primitive.name]
  | define =>
    rcases vals with _ | ⟨w, _ | ⟨v, _ | ⟨_, _⟩⟩⟩
    · rfl
    · cases w <;> rfl
    · cases w <;> simp [define, hquote, Primitive.name]
    · cases w <;> simp [define, Primitive.name]
  | assign =>
    rcases vals with _ | ⟨w, _ | ⟨v, _ | ⟨_, _⟩⟩⟩
    · rfl
    · cases w <;> rfl
    · cases w <;> simp [assign, hquote, Primitive.name]
    · cases w <;> simp [assign, Primitive.name]
  | lambda =>
    rcases vals with _ | ⟨ps, body⟩
    · rfl
    · simp [lambda, map_bare_evaluated, Primitive.name]
  | defun =>
    rcases vals with _ | ⟨w, _ | ⟨ps, body⟩⟩
    · rfl
    · cases w <;> rfl
    · cases w <;> simp [defun, map_bare_evaluated, Primitive.name]
  | sequence => exact congrArg some (evalSequence_evaluated hquote vals).symm
  | quote =>
    rcases vals with _ | ⟨v, _ | ⟨_, _⟩⟩
    · rfl
    · rfl
    · simp [Evaluator.quote, Primitive.name]
  | connective c =>
    cases c with
    | and => exact congrArg some (connective_evaluated hquote _ false vals).symm
    | or => exact congrArg some (connective_evaluated hquote _ true vals).symm
  | _ => cases hp

end OnValues

/-! ## 3. The result -/

/-- No value that is bound in a frame has a mark in it. -/
def Session.Unmarked (s : Session) : Prop := s.Binds fun v => v.unmarked = true

/-- What an evaluation gave has no mark in it, and no value that is bound after it. -/
def Answer.Unmarked (r : Answer Value) : Prop :=
  r.Keeps (fun v => v.unmarked = true) Session.Unmarked ([·])

/-- A check that does nothing where no value with a mark is bound. -/
def EvalM.PassesUnmarked (check : EvalM Unit) : Prop :=
  ∀ u : Session, u.Unmarked → check u = .ok () u

theorem runText_unmarked {s : Session} (hs : s.Unmarked) {check : EvalM Unit}
    (hcheck : check.PassesUnmarked) (n : Nat) (src : Text) :
    (checking check n).runText src s = evalText n src s := by
  cases hparse : parse src with
  | ok m =>
    rw [evalText_of_ok hparse, runText, hparse]
    exact ((keeps_checking Value.closed_unmarked hcheck n).eval s.root
      (.form (Value.unmarked_ofNode m)) s hs).1
  | error e =>
    rw [evalText_of_error hparse, runText, hparse]
    rfl

/-- There is such a check. -/
theorem passesUnmarked_pure : EvalM.PassesUnmarked (pure ()) := fun _ _ => rfl

theorem unmarked_evalText {s : Session} (hs : s.Unmarked) (fuel : Nat) (src : Text) :
    Answer.Unmarked (evalText fuel src s) := by
  cases hparse : parse src with
  | ok m =>
    rw [evalText_of_ok hparse]
    exact ((keeps_checking Value.closed_unmarked passesUnmarked_pure fuel).eval s.root
      (.form (Value.unmarked_ofNode m)) s hs).2
  | error e =>
    rw [evalText_of_error hparse]
    exact .error hs

theorem binds_newPrelude {st : Store} (h : st.Binds fun v => v.unmarked = true) (version : Text) :
    (st.newPrelude version).2.Binds fun v => v.unmarked = true := by
  refine h.alloc fun b hb => ?_
  rcases List.mem_append.mp hb with hb | hb
  · obtain ⟨p, -, rfl⟩ := List.mem_map.mp hb
    rfl
  · obtain rfl := List.mem_singleton.mp hb
    rfl

/-- In no state of a session is a value with a mark bound. -/
theorem Session.Life.unmarked {roots : List FrameId} {past : Store} {s : Session}
    (h : Life roots past s) : s.Unmarked := by
  induction h with
  | start version limit trace verbose observers =>
    exact binds_newPrelude (fun _ _ hf => by cases hf) version
  | works _ hwork ih =>
    cases hwork with
    | @run fuel src =>
      have hrun := unmarked_evalText ih fuel src
      unfold EvalM.after
      generalize evalText fuel src _ = r at hrun
      cases hrun with
      | ok _ ht => exact ht
      | error ht => exact ht
    | addGlobal name m =>
      have hbinds : Store.Binds (fun v => v.unmarked = true) _ := ih
      exact hbinds.set (Value.unmarked_ofNode m) _ name
  | clear _ ih => exact binds_newPrelude ih _

/-- **The marks of `apply` never escape.** From a session in which no value that is bound has a mark
    in it:

    * the evaluation of a form without marks gives a value without marks and leaves only such values
      bound, in every frame, and so it does if it fails or is given up;
    * so does the application of a function to values, and the run of a program;
    * no value with a mark is bound on the way either: a check that does nothing in sessions without
      one does nothing, though it is made around every application;
    * a special form that is applied to values binds and gives the values themselves. -/
theorem marks_never_escape {s : Session} (hs : s.Unmarked) (n : Nat) (env : FrameId) :
    (∀ form : Value, form.unmarked = true → Answer.Unmarked ((ofFuel n).eval env form s)) ∧
    (∀ (f : Value) (vals : List Value), f.unmarked = true → (∀ v ∈ vals, v.unmarked = true) →
      Answer.Unmarked ((ofFuel n).apply env f vals s)) ∧
    (∀ src : Text, Answer.Unmarked (evalText n src s)) ∧
    (∀ check : EvalM Unit, check.PassesUnmarked →
      (∀ form : Value, form.unmarked = true →
        (checking check n).eval env form s = (ofFuel n).eval env form s) ∧
      (∀ (f : Value) (vals : List Value), f.unmarked = true → (∀ v ∈ vals, v.unmarked = true) →
        (checking check n).apply env f vals s = (ofFuel n).apply env f vals s) ∧
      ∀ src : Text, (checking check n).runText src s = evalText n src s) ∧
    ∀ (p : Primitive) (vals : List Value), p.takesForms = true →
      ∃ act, p.onValues env vals = some act ∧
        (ofFuel (n + 2)).apply env (.native (.primitive p)) vals =
          observed (Native.primitive p).name (evaluated vals) act := by
  have hagree {check : EvalM Unit} (hcheck : check.PassesUnmarked) :=
    keeps_checking Value.closed_unmarked hcheck n
  have hkeeps := hagree passesUnmarked_pure
  refine ⟨fun form h => (hkeeps.eval env (.form h) s hs).2,
    fun f vals hf hvals => (hkeeps.apply env hf hvals s hs).2,
    fun src => unmarked_evalText hs n src, fun check hcheck => ?_,
    fun p vals hp => ⟨_, runPrimitive_evaluated (fun _ => rfl) hp vals, rfl⟩⟩
  exact ⟨fun form h => ((hagree hcheck).eval env (.form h) s hs).1,
    fun f vals hf hvals => ((hagree hcheck).apply env hf hvals s hs).1,
    fun src => runText_unmarked hs hcheck n src⟩

/-- Applies `apply` itself, which applies `defun` to a quoted form, and goes wrong after that. -/
def twiceApplied : Text :=
  "(apply apply (list defun '(keep (x) (list x 'y) ('a b)))) (apply set! (list 'k keep)) (k)"

/-- The answer to that. -/
@[irreducible] def twiceAnswer : Answer Value := evalText 50 twiceApplied (fresh "0.0.0")

theorem twiceAnswer_eq :
    twiceAnswer.isOk = false ∧ (twiceAnswer.session.find? "k").map Value.sexp =
      some "(defun keep (x) (list x 'y) ('a b))" := by decide +kernel

/-- A name and a value for `def`. -/
def namedValue : List Value := [.atom "k" Loc.start, .atom "x" Loc.start]

/-- A check that gives up where a value with a mark is bound. -/
def markCheck : EvalM Unit := do
  let s ← get
  if s.store.frames.all fun f => f.bindings.all (·.2.unmarked) then pure () else fail .malformed

theorem passesUnmarked_markCheck : markCheck.PassesUnmarked := by
  intro u hu
  have hall : (u.store.frames.all fun f => f.bindings.all (·.2.unmarked)) = true := by
    rw [Array.all_eq_true]
    intro i hi
    exact List.all_eq_true.mpr (hu i _ (Array.getElem?_eq_getElem hi))
  show (if u.store.frames.all fun f => f.bindings.all (·.2.unmarked) then pure ()
    else fail .malformed : EvalM Unit) u = _
  rw [if_pos hall]
  rfl

theorem marks_never_escape_twice :
    (fresh "0.0.0").Unmarked ∧
    (checking markCheck 50).runText twiceApplied (fresh "0.0.0") =
      evalText 50 twiceApplied (fresh "0.0.0") ∧
    (∃ e t, evalText 50 twiceApplied (fresh "0.0.0") = .error e t ∧ t.Unmarked ∧
      (t.find? "k").map Value.sexp = some "(defun keep (x) (list x 'y) ('a b))") ∧
    ∃ act, Primitive.define.onValues 0 namedValue = some act ∧
      (ofFuel 52).apply 0 (.native (.primitive .define)) namedValue =
        observed "def" (evaluated namedValue) act := by
  have hfresh : (fresh "0.0.0").Unmarked :=
    (Life.start "0.0.0" defaultLimit false false .plain []).unmarked
  obtain ⟨-, -, hrun, hchecks, hform⟩ := marks_never_escape hfresh 50 0
  obtain ⟨-, -, hsame⟩ := hchecks markCheck passesUnmarked_markCheck
  refine ⟨hfresh, hsame twiceApplied, ?_, hform .define _ rfl⟩
  have hend := hrun twiceApplied
  obtain ⟨hfails, hbound⟩ := twiceAnswer_eq
  unfold twiceAnswer at hfails hbound
  cases hr : evalText 50 twiceApplied (fresh "0.0.0") with
  | ok v t =>
    rw [hr] at hfails
    cases hfails
  | error e t =>
    rw [hr] at hend hbound
    cases hend with
    | error ht => exact ⟨e, t, rfl, ht, hbound⟩

end SmallLisp
