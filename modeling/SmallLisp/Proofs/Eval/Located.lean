import SmallLisp.Proofs.Eval.Applying
import SmallLisp.Proofs.Eval.Wrapped
import SmallLisp.Proofs.Node.Grammar
import SmallLisp.Proofs.Session.History
import SmallLisp.Proofs.Token.Lines

/-!
# Where an error is said to be

An error names a place. Where it is raised its place may not be known, as with a form that was put
together by the program; a call that it leaves then gives it its own.

Which calls an error leaves is not recorded anywhere. It is found out by leaving open what they do
with it: `marking mark n` evaluates like `ofFuel n`, but a fault that leaves a call goes on as
`mark` says.

* `uniform_marking`: the calls that a fault leaves do not depend on what they do with it;
* `passAll_locate`: if each of them gives the error its place unless it has one, it ends with the
  first place that is known;
* `known_of_placed`: an error of a form that was read always has a place.
-/

namespace SmallLisp

open EvalM Evaluator Session

/-! ## 1. Faults on their way out -/

/-- Goes on with another fault if the action fails. -/
def EvalM.passing {α : Type} (mark : Fault → Fault) (act : EvalM α) : EvalM α := fun s =>
  match act s with
  | .error (.fault f) t => .error (.fault (mark f)) t
  | r => r

section

variable {α : Type} {act : EvalM α} {s t : Session}

theorem passing_of_ok (mark : Fault → Fault) {a : α} (h : act s = .ok a t) :
    passing mark act s = .ok a t := by
  unfold passing
  rw [h]

theorem passing_of_fault (mark : Fault → Fault) {f : Fault} (h : act s = .error (.fault f) t) :
    passing mark act s = .error (.fault (mark f)) t := by
  unfold passing
  rw [h]

theorem passing_of_outOfFuel (mark : Fault → Fault) (h : act s = .error .outOfFuel t) :
    passing mark act s = .error .outOfFuel t := by
  unfold passing
  rw [h]

end

/-- A fault that leaves a call goes on as `mark` says. -/
def Wrapping.marking (mark : Value → Fault → Fault) : Wrapping :=
  { plain with call := fun form _ => passing (mark form) }

namespace Evaluator

/-- The evaluator with so many levels, in which a fault that leaves a call goes on as `mark`
    says. -/
def marking (mark : Value → Fault → Fault) : Nat → Evaluator := (Wrapping.marking mark).ofFuel

/-- Evaluation is what comes of giving each error the place of the call that it leaves. -/
theorem marking_locate (n : Nat) : marking (fun call f => f.locate call.loc) n = ofFuel n := by
  have hplain : Wrapping.marking (fun call f => f.locate call.loc) = .plain := rfl
  unfold marking
  rw [hplain, Wrapping.ofFuel_plain]

end Evaluator

/-- The value is a form that calls something. -/
inductive Value.IsCall : Value → Prop where
  | list (head : Value) (args : List Value) (loc : Loc) : IsCall (.list (head :: args) loc)

/-- A fault after it has left some calls, innermost first. -/
def passAll (mark : Value → Fault → Fault) (calls : List Value) (f : Fault) : Fault :=
  calls.foldl (fun f call => mark call f) f

/-! ## 2. The calls that a fault leaves -/

/-- Whatever the calls do with faults, the action ends in the same way, but for the marks on the
    fault it ends with; and those are the marks of the same calls. -/
inductive Answer.Uniform {α : Type} (run : (Value → Fault → Fault) → Answer α) : Prop where
  | ok (a : α) (t : Session) : (∀ mark, run mark = .ok a t) → Uniform run
  | fault (f : Fault) (calls : List Value) (t : Session) : (∀ call ∈ calls, call.IsCall) →
      (∀ mark, run mark = .error (.fault (passAll mark calls f)) t) → Uniform run
  | outOfFuel (t : Session) : (∀ mark, run mark = .error .outOfFuel t) → Uniform run

/-- So does the action in every session. -/
def EvalM.Uniform {α : Type} (act : (Value → Fault → Fault) → EvalM α) : Prop :=
  ∀ s, Answer.Uniform fun mark => act mark s

namespace EvalM.Uniform

variable {α β : Type}

theorem const (act : EvalM α) : Uniform fun _ => act := by
  intro s
  cases h : act s with
  | ok a t => exact .ok a t fun _ => h
  | error e t =>
    cases e with
    | fault f => exact .fault f [] t (List.forall_mem_nil _) fun _ => h
    | outOfFuel => exact .outOfFuel t fun _ => h

theorem bind {act : (Value → Fault → Fault) → EvalM α}
    {k : α → (Value → Fault → Fault) → EvalM β} (hact : Uniform act) (hk : ∀ a, Uniform (k a)) :
    Uniform fun mark => act mark >>= fun a => k a mark := by
  intro s
  cases hact s with
  | ok a t h =>
    have hthen (mark) : (act mark >>= fun a => k a mark) s = k a mark t := bind_of_ok (h mark)
    simpa only [hthen] using hk a t
  | fault f calls t hcalls h => exact .fault f calls t hcalls fun mark => bind_of_error (h mark)
  | outOfFuel t h => exact .outOfFuel t fun mark => bind_of_error (h mark)

theorem observed {act : (Value → Fault → Fault) → EvalM Value} (hact : Uniform act) (name : Text)
    (args : List Value) : Uniform fun mark => EvalM.observed name args (act mark) :=
  .bind (.const _) fun _ => .bind hact fun _ => .const _

theorem nested {act : (Value → Fault → Fault) → EvalM α} (hact : Uniform act) :
    Uniform fun mark => EvalM.nested (act mark) := by
  intro s
  cases hact { s with depth := s.depth + 1 } with
  | ok a t h => exact .ok a _ fun mark => nested_of_ok (h mark)
  | fault f calls t hcalls h => exact .fault f calls _ hcalls fun mark => nested_of_error (h mark)
  | outOfFuel t h => exact .outOfFuel _ fun mark => nested_of_error (h mark)

/-- A call that a fault leaves comes after those it has left. -/
theorem passing {act : (Value → Fault → Fault) → EvalM α} (hact : Uniform act) {call : Value}
    (hcall : call.IsCall) : Uniform fun mark => EvalM.passing (mark call) (act mark) := by
  intro s
  cases hact s with
  | ok a t h => exact .ok a t fun mark => passing_of_ok _ (h mark)
  | fault f calls t hcalls h =>
    have hall : ∀ c ∈ calls ++ [call], c.IsCall := by
      simpa [or_imp, forall_and] using ⟨hcalls, hcall⟩
    refine .fault f (calls ++ [call]) t hall fun mark => (passing_of_fault _ (h mark)).trans ?_
    simp [passAll]
  | outOfFuel t h => exact .outOfFuel t fun mark => passing_of_outOfFuel _ (h mark)

end EvalM.Uniform

section Levels

variable {ev : (Value → Fault → Fault) → Evaluator}
  (heval : ∀ env form, EvalM.Uniform fun mark => (ev mark).eval env form)
  (happly : ∀ env f vals, EvalM.Uniform fun mark => (ev mark).apply env f vals)

include heval happly

theorem Conduct.uniform {env : FrameId} {α : Type} {values : α → List Value}
    {m : Evaluator → EvalM α} (h : Conduct True (fun _ => True) env values m) :
    EvalM.Uniform fun mark => m (ev mark) := by
  induction h with
  | pure h => exact .const _
  | fail f => exact .const _
  | bind _ _ ihm ihk => exact .bind ihm fun a => ihk a fun _ _ => trivial
  | look k _ ihk => exact .bind (.const _) fun s => ihk s.view
  | bindName name h => exact .const _
  | put out => exact .const _
  | probe name args => exact .const _
  | eval h => exact heval _ _
  | apply h _ _ => exact happly _ _ _
  | inside home name _ _ ihk => exact .bind (.const _) ihk
  | observed name args _ ih => exact ih.observed name args

theorem uniform_evalForm (env : FrameId) (form : Value) :
    EvalM.Uniform fun mark => (Wrapping.marking mark).evalForm (ev mark) env form := by
  cases form with
  | list items loc =>
    cases items with
    | nil => exact .const _
    | cons head args =>
      refine .nested (.bind (.const _) fun _ => .bind (heval env head) fun f => ?_)
      have happlied : Conduct True (fun _ => True) env ([·]) fun ev =>
          ev.applyForms env loc f args :=
        conduct_applyForms Value.closed_true (fun _ _ => .form trivial) loc trivial fun _ => trivial
      exact .passing (happlied.uniform heval happly) (.list head args loc)
  | sequence body =>
    have hbody : Conduct True (fun _ => True) env ([·]) fun ev => ev.evalSequence env body :=
      conduct_evalSequence Value.closed_true fun _ _ => .form trivial
    exact hbody.uniform heval happly
  | _ => exact .const _

end Levels

/-- **Which calls a fault leaves does not depend on what they do with it.** -/
theorem uniform_marking (n : Nat) :
    (∀ env form, EvalM.Uniform fun mark => (marking mark n).eval env form) ∧
      ∀ env f vals, EvalM.Uniform fun mark => (marking mark n).apply env f vals := by
  induction n with
  | zero => exact ⟨fun _ _ => .const _, fun _ _ _ => .const _⟩
  | succ n ih =>
    refine ⟨fun env form => uniform_evalForm ih.1 ih.2 env form, fun env f vals => ?_⟩
    have happlied : Conduct True (fun _ => True) env ([·]) fun ev => ev.applyValues env f vals :=
      conduct_applyValues Value.closed_true trivial (fun _ _ => trivial) fun _ => trivial
    exact happlied.uniform ih.1 ih.2

/-! ## 3. Places on the way -/

/-- The first of some places that is known. -/
def Loc.firstKnown (locs : List Loc) : Loc :=
  (locs.find? (· ≠ Loc.unknown)).getD Loc.unknown

/-- An error that is given the place of each call it leaves, unless it has one, ends with the first
    place that is known. -/
theorem passAll_locate (e : EvalError) (calls : List Value) :
    passAll (fun call f => f.locate call.loc) calls (.eval e) =
      .eval ⟨Loc.firstKnown (e.loc :: calls.map Value.loc), e.cause⟩ := by
  induction calls generalizing e with
  | nil =>
    obtain ⟨loc, cause⟩ := e
    by_cases h : loc = Loc.unknown <;> simp [passAll, Loc.firstKnown, h]
  | cons call calls ih =>
    show passAll _ calls (.eval (e.locate call.loc)) = _
    rw [ih, EvalError.locate]
    by_cases h : e.loc = Loc.unknown <;> simp [Loc.firstKnown, h]

/-- The calls that a fault leaves make no evaluation error of it. -/
theorem exists_of_passAll {calls : List Value} {f : Fault} {e : EvalError}
    (h : passAll (fun call f => f.locate call.loc) calls f = .eval e) :
    ∃ raised, f = .eval raised := by
  cases f with
  | eval raised => exact ⟨raised, rfl⟩
  | _ =>
    exfalso
    induction calls with
    | nil => cases h
    | cons call calls ih => exact ih h

/-- In a run, of which `run mark` is the end if faults go on as `mark` says, the error was raised by
    something and left some calls. It has the cause it had at first, and the first place that was
    known: its own at first or, if it had none, that of one of the calls. -/
def EvalError.CameThrough (run : (Value → Fault → Fault) → Answer Value) (e : EvalError) : Prop :=
  ∃ (raised : EvalError) (calls : List Value) (t : Session), (∀ call ∈ calls, call.IsCall) ∧
    (∀ mark, run mark = .error (.fault (passAll mark calls (.eval raised))) t) ∧
    e.cause = raised.cause ∧ e.loc = Loc.firstKnown (raised.loc :: calls.map Value.loc)

theorem Answer.Uniform.cameThrough {run : (Value → Fault → Fault) → Answer Value}
    (h : Answer.Uniform run) {e : EvalError} {t : Session}
    (hrun : run (fun call f => f.locate call.loc) = .error (.fault (.eval e)) t) :
    e.CameThrough run := by
  cases h with
  | ok a u h =>
    rw [h] at hrun
    cases hrun
  | outOfFuel u h =>
    rw [h] at hrun
    cases hrun
  | fault f calls u hcalls h =>
    rw [h] at hrun
    obtain ⟨hfault, -⟩ := EStateM.Result.error.inj hrun
    have hpass := Stop.fault.inj hfault
    obtain ⟨raised, rfl⟩ := exists_of_passAll hpass
    rw [passAll_locate] at hpass
    obtain rfl := Fault.eval.inj hpass
    exact ⟨raised, calls, u, hcalls, h, rfl, rfl⟩

/-! ## 4. Forms with a place -/

/-- An evaluation error among the faults has a place. -/
def Stop.Known : Stop → Prop
  | .fault (.eval e) => e.loc ≠ Loc.unknown
  | _ => True

/-- The evaluation errors of the action have places. -/
def EvalM.Known {α : Type} (act : EvalM α) : Prop := ∀ s e t, act s = .error e t → e.Known

section Known

variable {α β : Type}

theorem known_pure (a : α) : EvalM.Known (pure a : EvalM α) := fun _ _ _ h => by cases h

theorem known_outOfFuel : EvalM.Known (throw .outOfFuel : EvalM α) := by
  intro s e t h
  cases h
  trivial

theorem known_raise {e : EvalError} (hloc : e.loc ≠ Loc.unknown) :
    EvalM.Known (raise e : EvalM α) := by
  intro s e t h
  cases h
  exact hloc

theorem known_bind {act : EvalM α} {k : α → EvalM β} (hact : EvalM.Known act)
    (hk : ∀ a, EvalM.Known (k a)) : EvalM.Known (act >>= k) := by
  intro s e t h
  cases hs : act s with
  | ok a u =>
    rw [bind_of_ok hs] at h
    exact hk a u e t h
  | error e' u =>
    rw [bind_of_error hs] at h
    cases h
    exact hact s e t hs

theorem known_look {k : Session → EvalM α} (hk : ∀ s, EvalM.Known (k s)) :
    EvalM.Known (get >>= k) := known_bind (fun _ _ _ h => by cases h) hk

theorem known_nested {act : EvalM α} (hact : EvalM.Known act) : EvalM.Known (nested act) := by
  intro s e t h
  cases hs : act { s with depth := s.depth + 1 } with
  | ok a u =>
    rw [nested_of_ok hs] at h
    cases h
  | error e' u =>
    rw [nested_of_error hs] at h
    cases h
    exact hact _ e u hs

/-- What leaves a call with a place has a place. -/
theorem known_located {loc : Loc} (hloc : loc ≠ Loc.unknown) (act : EvalM α) :
    EvalM.Known (located loc act) := by
  intro s e t h
  unfold located at h
  split at h
  · rename_i f u _
    cases h
    cases f with
    | eval e =>
      show (e.locate loc).loc ≠ Loc.unknown
      unfold EvalError.locate
      split
      · exact hloc
      · assumption
    | read e => trivial
    | malformed => trivial
  · rename_i hother
    cases e with
    | fault f => exact absurd h (hother f t)
    | outOfFuel => trivial

theorem known_checkDepth {loc : Loc} (hloc : loc ≠ Loc.unknown) :
    EvalM.Known (checkDepth loc) := by
  refine known_look fun s => ?_
  split
  · exact known_raise hloc
  · exact known_pure _

theorem known_evalSequence {ev : Evaluator} {env : FrameId} : ∀ {forms : List Value},
    (∀ form ∈ forms, EvalM.Known (ev.eval env form)) → EvalM.Known (ev.evalSequence env forms)
  | [], _ => known_pure _
  | [form], h => h form (List.mem_singleton_self form)
  | form :: next :: more, h => by
    obtain ⟨hform, hmore⟩ := List.forall_mem_cons.mp h
    exact known_bind hform fun _ => known_evalSequence hmore

end Known

/-- The form has a place as far as its evaluation can fail: so have atoms and calls, and what calls
    have for a head. The arguments need none, since the call has one. -/
inductive Value.Placed : Value → Prop where
  | unit : Placed .unit
  | number (x : Float) : Placed (.number x)
  | string (t : Text) : Placed (.string t)
  | bool (b : Bool) : Placed (.bool b)
  | atom (name : Text) {loc : Loc} : loc ≠ Loc.unknown → Placed (.atom name loc)
  | empty (loc : Loc) : Placed (.list [] loc)
  | call {head : Value} (args : List Value) {loc : Loc} : loc ≠ Loc.unknown → Placed head →
      Placed (.list (head :: args) loc)
  | sequence {body : List Value} : (∀ form ∈ body, Placed form) → Placed (.sequence body)
  | quote (v : Value) (applied : Bool) : Placed (.quote v applied)

theorem known_eval {env : FrameId} {form : Value}
    (h : ∀ n, EvalM.Known ((ofFuel n).evalForm env form)) (n : Nat) :
    EvalM.Known ((ofFuel n).eval env form) := by
  cases n with
  | zero => exact known_outOfFuel
  | succ n => exact h n

/-- **The errors of a form with a place have places.** -/
theorem known_of_placed {form : Value} (h : form.Placed) (env : FrameId) (n : Nat) :
    EvalM.Known ((ofFuel n).evalForm env form) := by
  induction h generalizing n with
  | atom name hloc =>
    rw [evalForm_atom]
    refine known_look fun s => ?_
    cases s.store.get? env name with
    | none => exact known_raise hloc
    | some v => exact known_pure v
  | call args hloc _ ih =>
    -- the head is evaluated before the call takes care of errors
    exact known_nested (known_bind (known_checkDepth hloc) fun _ =>
      known_bind (known_eval ih n) fun f => known_located hloc _)
  | sequence _ ih => exact known_evalSequence fun form hform => known_eval (ih form hform) n
  | _ => exact known_pure _

/-! ## 5. Source text -/

theorem known_of_mem_tokenize {cs : List Char} {t : Token} (h : t ∈ (tokenize cs).1) :
    t.loc ≠ Loc.unknown := by
  obtain ⟨lex, hlex, rfl⟩ := List.mem_map.mp h
  have hline : 1 ≤ lex.token.loc.line := Cursor.line_le_of_mem _ hlex
  intro hloc
  rw [hloc] at hline
  exact absurd hline (by decide)

theorem placed_withQuote (n : Node) : (Value.ofNode (n.withQuote true)).Placed := by
  cases n <;> exact .quote _ _

open Phrase in
/-- The tree of a phrase has a place, if the tokens of the phrase have. -/
theorem placed_tree : ∀ p : Phrase, (∀ t ∈ p.tokens, t.loc ≠ Loc.unknown) →
    (Value.ofNode p.tree).Placed
  | .number _ _ x, _ => .number x
  | .boolean _ b, _ => .bool b
  | .string _ s, _ => .string s
  | .atom loc name, h => .atom name (h ⟨.atom name, loc⟩ List.mem_cons_self)
  | .quote _ _, _ => placed_withQuote _
  | .list _ opened [] _, _ => .empty opened
  | .list b opened (p :: more) closed, h => by
    refine .call _ (h ⟨.opener b, opened⟩ List.mem_cons_self) (placed_tree p fun t ht => h t ?_)
    simp [Phrase.tokens, Phrase.yield, ht]

theorem mem_yield {ps : List Phrase} {p : Phrase} (hp : p ∈ ps) {t : Token} (ht : t ∈ p.tokens) :
    t ∈ Phrase.yield ps := by
  induction hp with
  | head => simp [Phrase.yield, ht]
  | tail _ _ ih => simp [Phrase.yield, ih]

theorem ofNodes_eq_map (ns : List Node) : Value.ofNodes ns = ns.map Value.ofNode := by
  induction ns with
  | nil => rfl
  | cons n ns ih => simp [Value.ofNodes, ih]

/-- Every program has a place. -/
theorem placed_of_parse {src : Text} {n : Node} (h : parse src = .ok n) :
    (Value.ofNode n).Placed := by
  obtain ⟨ps, htokens, rfl⟩ := parse_eq_ok_iff.mp h
  refine .sequence fun form hform => ?_
  rw [ofNodes_eq_map, List.map_map] at hform
  obtain ⟨p, hp, rfl⟩ := List.mem_map.mp hform
  refine placed_tree p fun t ht => ?_
  have hmem : t ∈ (tokenize (Utf8.decode src)).1 := by
    rw [htokens]
    exact mem_yield hp ht
  exact known_of_mem_tokenize hmem

theorem known_evalText (n : Nat) (src : Text) : EvalM.Known (evalText n src) := by
  intro s e t h
  cases hparse : parse src with
  | ok m =>
    rw [evalText_of_ok hparse] at h
    exact known_eval (known_of_placed (placed_of_parse hparse) s.root) n s e t h
  | error flaw =>
    rw [evalText_of_error hparse] at h
    cases h
    trivial

/-! ## 6. The result -/

/-- **Errors have places.** An evaluation error that a program ends with always has a place. And an
    evaluation error that any evaluation ends with, or the application of a function to values, has
    come through some calls to where it ends: it has kept its cause, and it has the first place that
    was known, its own or that of one of the calls. Evaluation is what comes of giving each error
    the place of the call that it leaves, unless it has one. -/
theorem errors_have_places (n : Nat) (s : Session) :
    (∀ src e t, evalText n src s = .error (.fault (.eval e)) t → e.loc ≠ Loc.unknown) ∧
    (∀ env form e t, (ofFuel n).eval env form s = .error (.fault (.eval e)) t →
      e.CameThrough fun mark => (marking mark n).eval env form s) ∧
    (∀ env f vals e t, (ofFuel n).apply env f vals s = .error (.fault (.eval e)) t →
      e.CameThrough fun mark => (marking mark n).apply env f vals s) ∧
    marking (fun call f => f.locate call.loc) n = ofFuel n := by
  refine ⟨fun src e t h => known_evalText n src s _ t h, fun env form e t h => ?_,
    fun env f vals e t h => ?_, marking_locate n⟩
  · rw [← marking_locate n] at h
    exact ((uniform_marking n).1 env form s).cameThrough h
  · rw [← marking_locate n] at h
    exact ((uniform_marking n).2 env f vals s).cameThrough h

/-- Evaluates a form that the program has put together, and that goes wrong in its head. -/
def hollowCall : Text := "(do\n  (eval (list (list car) \"x\")))"

/-- What that ends with. -/
def hollowError : EvalError := ⟨⟨2, 3⟩, .wrongCount "car" "1 argument" 0⟩

/-- The answer to that. -/
@[irreducible] def hollowAnswer : Answer Value := evalText 50 hollowCall (fresh "0.0.0")

theorem hollowAnswer_eq : hollowAnswer.fault? = some (.eval hollowError) := by decide +kernel

theorem errors_have_places_hollow :
    ∃ m t, parse hollowCall = .ok m ∧
      evalText 50 hollowCall (fresh "0.0.0") = .error (.fault (.eval hollowError)) t ∧
      hollowError.loc ≠ Loc.unknown ∧
      hollowError.CameThrough fun mark => (marking mark 50).eval 0 (.ofNode m) (fresh "0.0.0") := by
  obtain ⟨t, ht⟩ := Answer.exists_of_fault? hollowAnswer_eq
  unfold hollowAnswer at ht
  obtain ⟨hplace, hthrough, -, -⟩ := errors_have_places 50 (fresh "0.0.0")
  cases hparse : parse hollowCall with
  | ok m =>
    have heval := ht
    rw [evalText_of_ok hparse] at heval
    exact ⟨m, t, rfl, ht, hplace hollowCall _ t ht, hthrough 0 _ _ t heval⟩
  | error flaw =>
    rw [evalText_of_error hparse] at ht
    cases ht

end SmallLisp
