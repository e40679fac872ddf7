import SmallLisp.Proofs.Eval.Barring
import SmallLisp.Proofs.Value.Likeness

/-!
# Two runs that go the same way

Two evaluations that start from sessions that correspond are followed side by side. What may differ
between the two is a `Correspondence`: which places, frames, stores and reports stand for each
other. Its laws are facts about frames and output only, none about evaluation.

Which frames correspond changes as an evaluation makes new ones, so they do in a *world*, and a step
may lead to a later world.

* `Correspondence.Agree`: the answers of two runs correspond. Where the first has no answer for want
  of fuel, nothing is said.
* `Correspondence.Paired`: two actions that agree whenever they start from sessions that correspond.
  There is a lemma for each way of making an evaluation from smaller ones.
-/

namespace SmallLisp

open EvalM Evaluator

/-! ## 1. What a session has reported -/

/-- What a session has put out, counted and written down. -/
structure Report where
  output : List Output
  started : Tally
  finished : Tally
  journal : List Event

/-- What a session can report. -/
inductive News where
  /-- Puts out some texts, given newest first. -/
  | put (out : List Output)
  | started (name : Text)
  | finished (name : Text)
  | event (e : Event)

/-- The report with one more piece of news. -/
def Report.add (r : Report) : News → Report
  | .put out => { r with output := out ++ r.output }
  | .started name => { r with started := r.started.bump name }
  | .finished name => { r with finished := r.finished.bump name }
  | .event e => { r with journal := e :: r.journal }

/-- What a session has put out since another one, in order. -/
def Session.outputSince (t s : Session) : List Output :=
  (t.output.take (t.output.length - s.output.length)).reverse

theorem Session.outputSince_of_append {s t : Session} {out : List Output}
    (h : t.output = out ++ s.output) : t.outputSince s = out.reverse := by
  unfold outputSince
  rw [h, List.length_append, Nat.add_sub_cancel, List.take_left]

namespace Session

/-- What a session has reported so far. -/
def report (s : Session) : Report := ⟨s.output, s.started, s.finished, s.journal⟩

/-- The session after it has reported something. -/
def tell (s : Session) (n : News) : Session :=
  let r := s.report.add n
  { s with output := r.output, started := r.started, finished := r.finished, journal := r.journal }

end Session

/-! ## 2. Correspondences -/

/-- A new frame inside frame `home`, and the store in which it has its bindings. -/
def Store.enter (st : Store) (home : FrameId) (name : Text) (bindings : List (Text × Value)) :
    FrameId × Store :=
  let (frame, st) := st.push home name
  (frame, bindings.foldl (fun st (n, v) => st.set frame n v) st)

/-- What two runs may differ in, and which native functions they do without. -/
structure Correspondence where
  World : Type
  /-- The second world is a later one. -/
  le : World → World → Prop
  /-- Functions that the runs do without. -/
  barred : Native → Bool
  /-- Places that stand for each other. -/
  loc : Loc → Loc → Prop
  /-- Frames that stand for each other. -/
  frame : World → FrameId → FrameId → Prop
  store : World → Store → Store → Prop
  report : Report → Report → Prop
  /-- Printers that the two sessions may have. -/
  printer : Printer → Printer → Prop
  le_refl (w : World) : le w w
  le_trans {u v w : World} : le u v → le v w → le u w
  loc_refl (l : Loc) : loc l l
  locate {a a' b b' : Loc} : loc a a' → loc b b' →
    loc (if a = Loc.unknown then b else a) (if a' = Loc.unknown then b' else a')
  frame_mono {u w : World} {i i' : FrameId} : le u w → frame u i i' → frame w i i'
  report_add {r r' : Report} (n : News) : report r r' → report (r.add n) (r'.add n)
  get? {w : World} {st st' : Store} {i i' : FrameId} (name : Text) : store w st st' →
    frame w i i' → Option.Rel (Value.Like loc (frame w)) (st.get? i name) (st'.get? i' name)
  isSome_local? {w : World} {st st' : Store} {i i' : FrameId} (name : Text) : store w st st' →
    frame w i i' → (st.local? i name).isSome = (st'.local? i' name).isSome
  /-- A binding in stores `tu` and `tu'` that were reached from `st` and `st'`. If assignment is
      barred, the name was not bound there. -/
  set {w u : World} {st st' tu tu' : Store} {i i' : FrameId} {v v' : Value} (name : Text) :
    store w st st' → le w u → store u tu tu' → frame w i i' → Value.Like loc (frame u) v v' →
    (barred (.primitive .assign) = true → st.local? i name = none) →
    ∃ z, le w z ∧ (∀ j j', frame u j j' → frame z j j') ∧
      store z (tu.set i name v) (tu'.set i' name v')
  enter {w : World} {st st' : Store} {home home' : FrameId} {vals vals' : List Value} (name : Text)
    (params : List Text) : store w st st' → frame w home home' →
    Value.AllLike loc (frame w) vals vals' →
    ∃ u, le w u ∧ frame u (st.enter home name (params.zip vals)).1
        (st'.enter home' name (params.zip vals')).1 ∧
      store u (st.enter home name (params.zip vals)).2 (st'.enter home' name (params.zip vals')).2
  dump {w : World} {st st' : Store} {p p' : Printer} {v v' : Value} :
    barred (.primitive .dump) = false → printer p p' → store w st st' →
    Value.Like loc (frame w) v v' → v.dump (p st) = v'.dump (p' st')
  probe {w : World} {st st' : Store} {i i' : FrameId} {name : Text} :
    barred (.probe name) = false → store w st st' → frame w i i' → st.depth i = st'.depth i'
  surroundings {w : World} {st st' : Store} {i i' : FrameId} {name : Text} :
    barred (.surroundings name) = false → store w st st' → frame w i i' →
    st.listing i name false = st'.listing i' name false

theorem Report.add_congr {r r' : Report} (n : News) (h : r = r') : r.add n = r'.add n := by
  rw [h]

theorem Loc.orElse_congr {a a' b b' : Loc} (ha : a = a') (hb : b = b') :
    (if a = Loc.unknown then b else a) = if a' = Loc.unknown then b' else a' := by
  rw [ha, hb]

namespace Correspondence

/-- A run beside itself: of what stands for each other, only what is the same. It makes no
    difference then how functions are shown. -/
def same (c : Correspondence) (hloc : c.loc = Eq) : Correspondence where
  World := c.World
  le := c.le
  barred := c.barred
  loc := Eq
  frame w i i' := i = i' ∧ c.frame w i i'
  store w st st' := st = st' ∧ c.store w st st'
  report := Eq
  printer := Eq
  le_refl := c.le_refl
  le_trans := c.le_trans
  loc_refl _ := rfl
  locate ha hb := Loc.orElse_congr ha hb
  frame_mono hle hi := ⟨hi.1, c.frame_mono hle hi.2⟩
  report_add n h := Report.add_congr n h
  get? {w st st' i i'} name hst hi := by
    obtain ⟨rfl, hst⟩ := hst
    obtain ⟨rfl, hi⟩ := hi
    have hget := c.get? name hst hi
    generalize st.get? i name = found at hget ⊢
    cases found with
    | none => exact .none
    | some v =>
      cases hget with
      | some hv => exact .some hv.self
  isSome_local? {w st st' i i'} name hst hi := by rw [hst.1, hi.1]
  set {w u st st' tu tu' i i' v v'} name hst hle htu hi hv hfree := by
    obtain ⟨rfl, hst⟩ := hst
    obtain ⟨rfl, htu⟩ := htu
    obtain ⟨rfl, hi⟩ := hi
    have hlike : Value.Like c.loc (c.frame u) v v' := hloc ▸ hv.mono fun _ _ hj => hj.2
    obtain rfl := Value.Like.eq (hv.mono fun _ _ hj => hj.1)
    obtain ⟨z, hz, hframes, hstore⟩ := c.set name hst hle htu hi hlike hfree
    exact ⟨z, hz, fun j j' hj => ⟨hj.1, hframes j j' hj.2⟩, rfl, hstore⟩
  enter {w st st' home home' vals vals'} name params hst hhome hvals := by
    obtain ⟨rfl, hst⟩ := hst
    obtain ⟨rfl, hhome⟩ := hhome
    have hlike : Value.AllLike c.loc (c.frame w) vals vals' := hloc ▸ hvals.mono fun _ _ hj => hj.2
    obtain rfl := Value.AllLike.eq (hvals.mono fun _ _ hj => hj.1)
    obtain ⟨u, hu, hframe, hstore⟩ := c.enter name params hst hhome hlike
    exact ⟨u, hu, ⟨rfl, hframe⟩, rfl, hstore⟩
  dump {w st st' p p' v v'} _ hp hst hv := by
    rw [hp, hst.1, Value.Like.eq (hv.mono fun _ _ hj => hj.1)]
  probe _ hst hi := by rw [hst.1, hi.1]
  surroundings _ hst hi := by rw [hst.1, hi.1]

variable (c : Correspondence)

/-- Values that stand for each other. -/
abbrev Value (w : c.World) : SmallLisp.Value → SmallLisp.Value → Prop :=
  SmallLisp.Value.Like c.loc (c.frame w)

/-- Lists of values that stand for each other one by one. -/
abbrev Values (w : c.World) : List SmallLisp.Value → List SmallLisp.Value → Prop :=
  SmallLisp.Value.AllLike c.loc (c.frame w)

/-- Sessions that stand for each other. -/
structure Sessions (w : c.World) (s s' : Session) : Prop where
  version : s.version = s'.version
  store : c.store w s.store s'.store
  root : c.frame w s.root s'.root
  limit : s.limit = s'.limit
  trace : s.trace = s'.trace
  verbose : s.verbose = s'.verbose
  printer : c.printer s.printer s'.printer
  depth : s.depth = s'.depth
  observers : s.observers = s'.observers
  report : c.report s.report s'.report

/-- The answers correspond, in a world not before `w`. -/
inductive Agree {α : Type} (R : c.World → α → α → Prop) (w : c.World) :
    Answer α → Answer α → Prop where
  | ok {u : c.World} {a a' : α} {s s' : Session} :
      c.le w u → R u a a' → c.Sessions u s s' → Agree R w (.ok a s) (.ok a' s')
  | fault {u : c.World} {f f' : Fault} {s s' : Session} :
      c.le w u → Fault.Like c.loc f f' → c.Sessions u s s' →
      Agree R w (.error (.fault f) s) (.error (.fault f') s')
  | outOfFuel {s : Session} {r : Answer α} : Agree R w (.error .outOfFuel s) r

/-- From sessions that correspond, the two actions agree. -/
def Paired {α : Type} (w : c.World) (R : c.World → α → α → Prop) (m m' : EvalM α) : Prop :=
  ∀ ⦃s s' : Session⦄, c.Sessions w s s' → c.Agree R w (m s) (m' s')

variable {c} {w : c.World}

/-! ## 3. Sessions that correspond -/

variable (c) in
theorem value_mono {u : c.World} (h : c.le w u) {v v' : SmallLisp.Value} (hv : c.Value w v v') :
    c.Value u v v' := hv.mono fun _ _ => c.frame_mono h

variable (c) in
theorem values_mono {u : c.World} (h : c.le w u) {vs vs' : List SmallLisp.Value}
    (hvs : c.Values w vs vs') : c.Values u vs vs' := hvs.mono fun _ _ => c.frame_mono h

namespace Sessions

variable {s s' : Session}

theorem tell (h : c.Sessions w s s') (n : News) : c.Sessions w (s.tell n) (s'.tell n) :=
  { h with report := c.report_add n h.report }

theorem withDepth (h : c.Sessions w s s') {d d' : Nat} (hd : d = d') :
    c.Sessions w { s with depth := d } { s' with depth := d' } := { h with depth := hd }

/-- Telling the observers keeps the sessions in step if telling each of them does. -/
theorem foldl_tell {tell tell' : Session → Observer → Session}
    (htell : ∀ {s s'} (o), c.Sessions w s s' → c.Sessions w (tell s o) (tell' s' o))
    (os : List Observer) (h : c.Sessions w s s') :
    c.Sessions w (os.foldl tell s) (os.foldl tell' s') := by
  induction os generalizing s s' with
  | nil => exact h
  | cons o os ih => exact ih (htell o h)

theorem announce (h : c.Sessions w s s') (name : Text) {args args' : List SmallLisp.Value}
    (hargs : c.Values w args args') :
    c.Sessions w (s.announce name args) (s'.announce name args') := by
  have hbefore : ∀ {t t' : Session} (o : Observer), c.Sessions w t t' →
      c.Sessions w (Session.tellBefore name args t o) (Session.tellBefore name args' t' o) := by
    intro t t' o ht
    cases o with
    | tally => exact ht.tell (.started name)
    | journal =>
      have hevent : Session.tellBefore name args t .journal =
          t.tell (.event (.before name (Value.joined args') t'.depth)) := by
        rw [← hargs.joined, ← ht.depth]
        rfl
      rw [hevent]
      exact ht.tell _
  have hlogged : c.Sessions w (if s.trace then s.log (s.traceLine name args) else s)
      (if s'.trace then s'.log (s'.traceLine name args') else s') := by
    have hline : s.traceLine name args = s'.traceLine name args' := by
      rw [Session.traceLine, Session.traceLine, h.depth, hargs.joined]
    rw [h.trace, hline]
    split
    · exact h.tell (.put [.logged (s'.traceLine name args' ++ "\n")])
    · exact h
  unfold Session.announce
  dsimp only
  rw [hlogged.observers]
  exact hlogged.foldl_tell hbefore _

theorem conclude (h : c.Sessions w s s') (name : Text) {v v' : SmallLisp.Value}
    (hv : c.Value w v v') : c.Sessions w (s.conclude name v) (s'.conclude name v') := by
  unfold Session.conclude
  rw [h.observers]
  refine h.foldl_tell ?_ _
  intro t t' o ht
  cases o with
  | tally => exact ht.tell (.finished name)
  | journal =>
    have hevent : Session.tellAfter name v t .journal =
        t.tell (.event (.after name v'.sexp t'.depth)) := by
      rw [← hv.sexp, ← ht.depth]
      rfl
    rw [hevent]
    exact ht.tell _

end Sessions

/-! ## 4. Actions side by side -/

section Actions

variable {α β : Type} {R : c.World → α → α → Prop} {Q : c.World → β → β → Prop}

theorem Agree.later {u : c.World} (h : c.le w u) {r r' : Answer α} (ha : c.Agree R u r r') :
    c.Agree R w r r' := by
  cases ha with
  | ok hle hR hs => exact .ok (c.le_trans h hle) hR hs
  | fault hle hf hs => exact .fault (c.le_trans h hle) hf hs
  | outOfFuel => exact .outOfFuel

theorem Agree.finished {r r' : Answer α} (h : c.Agree R w r r') (hr : Finished r) :
    Finished r' := by
  cases h with
  | ok _ _ _ => trivial
  | fault _ _ _ => trivial
  | outOfFuel => exact False.elim hr

namespace Paired

theorem pure {a a' : α} (h : R w a a') : c.Paired w R (Pure.pure a) (Pure.pure a') :=
  fun _ _ hs => .ok (c.le_refl w) h hs

theorem fail {f f' : Fault} (h : Fault.Like c.loc f f') :
    c.Paired w R (EvalM.fail f) (EvalM.fail f') := fun _ _ hs => .fault (c.le_refl w) h hs

theorem raise {e e' : EvalError} (h : EvalError.Like c.loc e e') :
    c.Paired w R (EvalM.raise e) (EvalM.raise e') := fail (.eval h)

theorem arity (op : Text) (want : String) {n n' : Nat} (h : n = n') :
    c.Paired w R (EvalM.raise (.arity op want n)) (EvalM.raise (.arity op want n')) :=
  raise ⟨c.loc_refl _, by rw [h]⟩

theorem mismatch (op : Text) (want : String) {v v' : SmallLisp.Value} (h : c.Value w v v') :
    c.Paired w R (EvalM.raise (.mismatch op want v)) (EvalM.raise (.mismatch op want v')) :=
  raise (like_mismatch (c.loc_refl _) op want h)

theorem ofExcept {r r' : Except EvalError α} (h : Outcome.Like c.loc (R w) r r') :
    c.Paired w R (EvalM.ofExcept r) (EvalM.ofExcept r') := by
  cases h with
  | ok ha => exact pure ha
  | error he => exact raise he

theorem outOfFuel {m' : EvalM α} : c.Paired w R (throw .outOfFuel) m' := fun _ _ _ => .outOfFuel

theorem bind {m m' : EvalM α} {k k' : α → EvalM β} (hm : c.Paired w R m m')
    (hk : ∀ {u a a'}, c.le w u → R u a a' → c.Paired u Q (k a) (k' a')) :
    c.Paired w Q (m >>= k) (m' >>= k') := by
  intro s s' hs
  have hagree := hm hs
  show c.Agree Q w (EStateM.bind m k s) (EStateM.bind m' k' s')
  unfold EStateM.bind
  generalize m s = r at hagree ⊢
  generalize m' s' = r' at hagree ⊢
  cases hagree with
  | ok hle hR ht => exact (hk hle hR ht).later hle
  | fault hle hf ht => exact .fault hle hf ht
  | outOfFuel => exact .outOfFuel

/-- Both actions look at their session and go on. -/
theorem look {k k' : Session → EvalM β}
    (hk : ∀ {s s'}, c.Sessions w s s' → c.Paired w Q (k s) (k' s')) :
    c.Paired w Q (get >>= k) (get >>= k') := fun _ _ hs => hk hs hs

/-- Both actions change their session. -/
theorem change {f f' : Session → Session}
    (h : ∀ {s s'}, c.Sessions w s s' → c.Sessions w (f s) (f' s')) :
    c.Paired w (fun _ => Eq) (modify f) (modify f') :=
  fun _ _ hs => .ok (c.le_refl w) rfl (h hs)

theorem located {l l' : Loc} (hl : c.loc l l') {m m' : EvalM α} (hm : c.Paired w R m m') :
    c.Paired w R (EvalM.located l m) (EvalM.located l' m') := by
  intro s s' hs
  have hagree := hm hs
  unfold EvalM.located
  generalize m s = r at hagree ⊢
  generalize m' s' = r' at hagree ⊢
  cases hagree with
  | ok hle hR ht => exact .ok hle hR ht
  | outOfFuel => exact .outOfFuel
  | fault hle hf ht =>
    refine .fault hle ?_ ht
    cases hf with
    | read e => exact .read e
    | malformed => exact .malformed
    | @eval e e' he =>
      have hloc := c.locate he.loc hl
      refine .eval ⟨?_, ?_⟩
      · unfold EvalError.locate
        split <;> split <;> simp_all
      · unfold EvalError.locate
        split <;> split <;> exact he.cause

theorem nested {m m' : EvalM α} (hm : c.Paired w R m m') :
    c.Paired w R (EvalM.nested m) (EvalM.nested m') := by
  intro s s' hs
  have hdeeper : s.depth + 1 = s'.depth + 1 := by rw [hs.depth]
  have hagree := hm (hs.withDepth hdeeper)
  unfold EvalM.nested
  generalize m _ = r at hagree ⊢
  generalize m' _ = r' at hagree ⊢
  cases hagree with
  | ok hle hR ht => exact .ok hle hR (ht.withDepth (by rw [ht.depth]))
  | fault hle hf ht => exact .fault hle hf (ht.withDepth (by rw [ht.depth]))
  | outOfFuel => exact .outOfFuel

theorem checkDepth {l l' : Loc} (hl : c.loc l l') :
    c.Paired w (fun _ => Eq) (EvalM.checkDepth l) (EvalM.checkDepth l') := by
  refine look fun {s s'} hs => ?_
  rw [hs.limit, hs.depth]
  split
  · exact raise ⟨hl, rfl⟩
  · exact pure rfl

theorem observed (name : Text) {args args' : List SmallLisp.Value} (hargs : c.Values w args args')
    {m m' : EvalM SmallLisp.Value} (hm : c.Paired w c.Value m m') :
    c.Paired w c.Value (EvalM.observed name args m) (EvalM.observed name args' m') := by
  intro s s' hs
  -- The sessions after the announcement correspond in the same world: it makes no frame.
  refine (hm.bind fun {u v v'} _ hv => ?_) (hs.announce name hargs)
  refine (change fun ht => ht.conclude name hv).bind fun hle _ => ?_
  exact pure (c.value_mono hle hv)

end Paired

end Actions

end Correspondence

end SmallLisp
