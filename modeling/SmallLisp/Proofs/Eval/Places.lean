import SmallLisp.Proofs.Eval.Pairing
import SmallLisp.Proofs.Scope
import SmallLisp.Proofs.Value.Bindings

/-!
# Places in the source do not matter

Atoms and lists carry the place where they were read. Two sessions that are equal but for such
places *match*, and so do values. Places are told in errors, and `dump` prints them; they have no
influence on anything else.

* `Correspondence.placing`: runs in matching sessions, which may have put out different texts
  before;
* `places_never_matter`: if a form is evaluated without `dump`, then a matching form in a matching
  session gives a matching answer.
-/

namespace SmallLisp

open EvalM Evaluator

/-! ## 1. Frames and stores that match -/

/-- The values are equal but for places. -/
abbrev Value.Matches : Value → Value → Prop := Value.Like (fun _ _ => True) Eq

/-- The bindings are of the same names, to values that match. -/
abbrev Bindings.Matches : List (Text × Value) → List (Text × Value) → Prop :=
  List.Forall₂ fun b b' => b.1 = b'.1 ∧ b.2.Matches b'.2

theorem Value.Matches.refl (v : Value) : v.Matches v :=
  Value.Like.refl (fun _ => trivial) (fun _ => rfl) v

theorem Bindings.Matches.refl (bs : List (Text × Value)) : Bindings.Matches bs bs :=
  List.forall₂_same.mpr fun b _ => ⟨rfl, Value.Matches.refl b.2⟩

/-- The frames are equal but for places. -/
structure Frame.Matches (f f' : Frame) : Prop where
  name : f.name = f'.name
  parent : f.parent = f'.parent
  bindings : Bindings.Matches f.bindings f'.bindings

theorem Frame.Matches.refl (f : Frame) : f.Matches f := ⟨rfl, rfl, .refl f.bindings⟩

theorem Frame.Matches.set {f f' : Frame} (h : f.Matches f') (name : Text) {v v' : Value}
    (hv : v.Matches v') : (f.set name v).Matches (f'.set name v') :=
  ⟨h.name, h.parent, Bindings.Like.bind h.bindings name hv⟩

theorem Frame.Matches.listing {f f' : Frame} (h : f.Matches f') (indent : Nat) (natives : Bool) :
    f.listing indent natives = f'.listing indent natives :=
  Frame.listing_of_seen h.name h.bindings.length_eq (Bindings.Like.seen h.bindings natives) indent

/-- The stores are equal but for places. -/
def Store.Matches (st st' : Store) : Prop :=
  ∀ i, Option.Rel Frame.Matches (st.frame? i) (st'.frame? i)

namespace Store.Matches

variable {st st' : Store}

theorem refl (st : Store) : st.Matches st := by
  intro i
  cases st.frame? i with
  | none => exact .none
  | some f => exact .some (.refl f)

theorem size (h : st.Matches st') : st.frames.size = st'.frames.size := by
  have hnone : ∀ i, st.frame? i = none ↔ st'.frame? i = none := by
    intro i
    have hi := isSome_of_rel (h i)
    rw [← Option.not_isSome_iff_eq_none, ← Option.not_isSome_iff_eq_none, hi]
  unfold frame? at hnone
  have hle := (hnone st.frames.size).mp (Array.getElem?_eq_none_iff.mpr (Nat.le_refl _))
  have hge := (hnone st'.frames.size).mpr (Array.getElem?_eq_none_iff.mpr (Nat.le_refl _))
  exact Nat.le_antisymm (Array.getElem?_eq_none_iff.mp hge) (Array.getElem?_eq_none_iff.mp hle)

theorem local? (h : st.Matches st') (i : FrameId) (name : Text) :
    Option.Rel Value.Matches (st.local? i name) (st'.local? i name) := by
  have hi := h i
  unfold Store.local?
  generalize st.frame? i = f? at hi ⊢
  generalize st'.frame? i = f?' at hi ⊢
  cases hi with
  | none => exact .none
  | some hf => exact Bindings.Like.lookup hf.bindings name

theorem chainUpTo (h : st.Matches st') (n : Nat) (i : FrameId) :
    st.chainUpTo n i = st'.chainUpTo n i := by
  induction n generalizing i with
  | zero => rfl
  | succ n ih =>
    have hi := h i
    unfold Store.chainUpTo
    generalize st.frame? i = f? at hi ⊢
    generalize st'.frame? i = f?' at hi ⊢
    cases hi with
    | none => rfl
    | some hf =>
      dsimp only
      rw [hf.parent]
      split
      · rfl
      · rw [ih]

theorem chain (h : st.Matches st') (i : FrameId) : st.chain i = st'.chain i := h.chainUpTo _ i

theorem get? (h : st.Matches st') (i : FrameId) (name : Text) :
    Option.Rel Value.Matches (st.get? i name) (st'.get? i name) := by
  unfold Store.get?
  rw [h.chain]
  induction st'.chain i with
  | nil => exact .none
  | cons j js ih =>
    rw [List.findSome?_cons, List.findSome?_cons]
    have hj := h.local? j name
    generalize st.local? j name = v? at hj ⊢
    generalize st'.local? j name = v?' at hj ⊢
    cases hj with
    | none => exact ih
    | some hv => exact .some hv

theorem listing (h : st.Matches st') (i : FrameId) (label : Text) (natives : Bool) :
    st.listing i label natives = st'.listing i label natives := by
  have hframes : ∀ (indent : Nat) (js : List FrameId),
      st.listings natives indent js = st'.listings natives indent js := by
    intro indent js
    induction js generalizing indent with
    | nil => rfl
    | cons j js ih =>
      unfold Store.listings
      rw [ih]
      have hj := h j
      generalize st.frame? j = f? at hj ⊢
      generalize st'.frame? j = f?' at hj ⊢
      cases hj with
      | none => rfl
      | some hf => simp [hf.listing]
  unfold Store.listing
  rw [h.chain, hframes]

theorem set (h : st.Matches st') (i : FrameId) (name : Text) {v v' : Value} (hv : v.Matches v') :
    (st.set i name v).Matches (st'.set i name v') := by
  intro j
  rw [frame?_set, frame?_set]
  have hj := h j
  split
  · generalize st.frame? j = f? at hj ⊢
    generalize st'.frame? j = f?' at hj ⊢
    cases hj with
    | none => exact .none
    | some hf => exact .some (hf.set name hv)
  · exact hj

theorem push (h : st.Matches st') (home : FrameId) (name : Text) :
    (st.push home name).2.Matches (st'.push home name).2 := by
  intro j
  rw [frame?_push, frame?_push, h.size]
  split
  · exact .some ⟨rfl, rfl, .nil⟩
  · exact h j

theorem foldl_set (h : st.Matches st') (i : FrameId) {bs bs' : List (Text × Value)}
    (hbs : Bindings.Matches bs bs') :
    (bs.foldl (fun st (n, v) => st.set i n v) st).Matches
      (bs'.foldl (fun st (n, v) => st.set i n v) st') := by
  induction hbs generalizing st st' with
  | nil => exact h
  | @cons b b' bs bs' hb _ ih =>
    obtain ⟨n, v⟩ := b
    obtain ⟨n', v'⟩ := b'
    obtain ⟨rfl, hv⟩ := hb
    exact ih (h.set i n hv)

theorem enter (h : st.Matches st') (home : FrameId) (name : Text) {bs bs' : List (Text × Value)}
    (hbs : Bindings.Matches bs bs') :
    (st.enter home name bs).2.Matches (st'.enter home name bs').2 := by
  have hbound := (h.push home name).foldl_set st'.frames.size hbs
  have henter : (st.enter home name bs).2 =
      bs.foldl (fun st (n, v) => st.set st'.frames.size n v) (st.push home name).2 := by
    rw [← h.size]
    rfl
  rw [henter]
  exact hbound

end Store.Matches

/-! ## 2. Runs that match -/

/-- The function is `dump`. -/
def Native.dumps (f : Native) : Bool := f == .primitive .dump

/-- The reports are equal but for what was put out before: `past` in the one and `past'` in the
    other. -/
structure Report.Since (past past' : List Output) (r r' : Report) : Prop where
  output : ∃ out, r.output = out ++ past ∧ r'.output = out ++ past'
  started : r.started = r'.started
  finished : r.finished = r'.finished
  journal : r.journal = r'.journal

theorem Report.Since.add {past past' : List Output} {r r' : Report} (h : r.Since past past' r')
    (n : News) : (r.add n).Since past past' (r'.add n) := by
  obtain ⟨⟨out, hr, hr'⟩, hstarted, hfinished, hjournal⟩ := h
  cases n with
  | put new =>
    refine ⟨⟨new ++ out, ?_, ?_⟩, hstarted, hfinished, hjournal⟩
    · show new ++ r.output = _
      rw [hr, List.append_assoc]
    · show new ++ r'.output = _
      rw [hr', List.append_assoc]
  | started name =>
    refine ⟨⟨out, hr, hr'⟩, ?_, hfinished, hjournal⟩
    show r.started.bump name = r'.started.bump name
    rw [hstarted]
  | finished name =>
    refine ⟨⟨out, hr, hr'⟩, hstarted, ?_, hjournal⟩
    show r.finished.bump name = r'.finished.bump name
    rw [hfinished]
  | event e =>
    refine ⟨⟨out, hr, hr'⟩, hstarted, hfinished, ?_⟩
    show e :: r.journal = e :: r'.journal
    rw [hjournal]

theorem Report.Since.outputSince {s s' t t' : Session}
    (h : t.report.Since s.output s'.output t'.report) : t.outputSince s = t'.outputSince s' := by
  obtain ⟨out, hout, hout'⟩ := h.output
  rw [Session.outputSince_of_append hout, Session.outputSince_of_append hout']

/-- Runs without `dump` in sessions that are equal but for places and for what was put out before
    them. -/
def Correspondence.placing (past past' : List Output) : Correspondence where
  World := Unit
  le _ _ := True
  barred := Native.dumps
  loc _ _ := True
  frame _ := Eq
  store _ := Store.Matches
  report := Report.Since past past'
  printer := Eq
  le_refl _ := trivial
  le_trans _ _ := trivial
  loc_refl _ := trivial
  locate _ _ := trivial
  frame_mono _ h := h
  report_add n h := h.add n
  get? {_ st st' i i'} name hst hi := by
    subst hi
    exact hst.get? i name
  isSome_local? {_ st st' i i'} name hst hi := by
    subst hi
    exact isSome_of_rel (hst.local? i name)
  set {_ u st st' tu tu' i i' v v'} name _ _ htu hi hv _ := by
    subst hi
    exact ⟨u, trivial, fun _ _ h => h, htu.set i name hv⟩
  enter {w st st' home home' vals vals'} name params hst hhome hvals := by
    subst hhome
    exact ⟨w, trivial, hst.size, hst.enter home name (Bindings.Like.zip hvals params)⟩
  dump hbar := by cases hbar
  probe {_ st st' i i' name} _ hst hi := by
    subst hi
    rw [Store.depth, Store.depth, hst.chain]
  surroundings {_ st st' i i' name} _ hst hi := by
    subst hi
    exact hst.listing i name false

/-! ## 3. The result -/

/-- The sessions are equal but for places: the same settings, counts, journal and output, and frames
    that match. -/
structure Session.Matches (s s' : Session) : Prop where
  version : s.version = s'.version
  store : s.store.Matches s'.store
  root : s.root = s'.root
  limit : s.limit = s'.limit
  trace : s.trace = s'.trace
  verbose : s.verbose = s'.verbose
  printer : s.printer = s'.printer
  depth : s.depth = s'.depth
  observers : s.observers = s'.observers
  started : s.started = s'.started
  finished : s.finished = s'.finished
  journal : s.journal = s'.journal
  output : s.output = s'.output

/-- Two values that match, or two faults of the same kind and wording but for the place of an
    evaluation error, in sessions that match. -/
inductive Answer.Matches : Answer Value → Answer Value → Prop where
  | ok {v v' : Value} {s s' : Session} : v.Matches v' → s.Matches s' →
      Matches (.ok v s) (.ok v' s')
  | fault {f f' : Fault} {s s' : Session} : Fault.Like (fun _ _ => True) f f' → s.Matches s' →
      Matches (.error (.fault f) s) (.error (.fault f') s')

theorem Session.Matches.sessions {s s' : Session} (h : s.Matches s') :
    (Correspondence.placing s.output s.output).Sessions () s s' where
  version := h.version
  store := h.store
  root := h.root
  limit := h.limit
  trace := h.trace
  verbose := h.verbose
  printer := h.printer
  depth := h.depth
  observers := h.observers
  report := ⟨⟨[], rfl, h.output.symm⟩, h.started, h.finished, h.journal⟩

theorem Correspondence.Sessions.matches {past : List Output} {s s' : Session}
    (h : (placing past past).Sessions () s s') : s.Matches s' := by
  obtain ⟨⟨out, hout, hout'⟩, hstarted, hfinished, hjournal⟩ := h.report
  exact ⟨h.version, h.store, h.root, h.limit, h.trace, h.verbose, h.printer, h.depth, h.observers,
    hstarted, hfinished, hjournal, hout.trans hout'.symm⟩

/-- **Places never influence a computation.** If a form is evaluated without `dump` and the
    evaluation ends, then a form that is equal to it but for places, in a session that is equal but
    for places, ends as well and without `dump`: either both have values, equal but for places, or
    both fail for the same cause; what is printed and logged is the same, and the sessions are again
    equal but for places. -/
theorem places_never_matter {s s' : Session} (env : FrameId) {form form' : Value}
    {r : Answer Value} (hs : s.Matches s') (hform : form.Matches form')
    (h : s.AnswersWithout Native.dumps env form r) :
    ∃ r', s'.AnswersWithout Native.dumps env form' r' ∧ r.Matches r' := by
  obtain ⟨r', hr', hagree⟩ :=
    (Correspondence.placing s.output s.output).answersWithout hs.sessions rfl hform h
  refine ⟨r', hr', ?_⟩
  cases hagree with
  | ok _ hv ht => exact .ok hv ht.matches
  | fault _ hf ht => exact .fault hf ht.matches
  | outOfFuel => exact h.1.elim

/-- A session with a function `shout`, which prints what it is given, read at some place. -/
def shoutSession (l : Loc) : Session :=
  (Session.fresh "0.0.0").addGlobal "shout" (.closure "shout" (some ["x"])
    [.list [.atom "println" l, .atom "x" l] l] 0)

/-- The call `(shout "hey")`, read at some place. -/
def shoutForm (l : Loc) : Value := .list [.atom "shout" l, .string "hey"] l

theorem shoutForm_matches (l l' : Loc) : (shoutForm l).Matches (shoutForm l') :=
  .list (.cons (.atom _ trivial) (.cons (.string _) .nil)) trivial

theorem shoutSession_matches (l l' : Loc) : (shoutSession l).Matches (shoutSession l') := by
  have hbody : List.Forall₂ Value.Matches [.list [.atom "println" l, .atom "x" l] l]
      [.list [.atom "println" l', .atom "x" l'] l'] :=
    .cons (.list (.cons (.atom _ trivial) (.cons (.atom _ trivial) .nil)) trivial) .nil
  have hstore : (shoutSession l).store.Matches (shoutSession l').store :=
    (Store.Matches.refl (Session.fresh "0.0.0").store).set 0 "shout"
      (.closure "shout" (some ["x"]) hbody rfl)
  exact ⟨rfl, hstore, rfl, rfl, rfl, rfl, rfl, rfl, rfl, rfl, rfl, rfl, rfl⟩

/-- The answer to the call, everything read at the start of a text. -/
@[irreducible] def shoutAnswer : Answer Value :=
  (barring Native.dumps 20).eval 0 (shoutForm Loc.start) (shoutSession Loc.start)

theorem shoutSession_answers :
    (shoutSession Loc.start).AnswersWithout Native.dumps 0 (shoutForm Loc.start) shoutAnswer :=
  ⟨Answer.finished_of_isOk (by decide +kernel), 20, by rw [shoutAnswer]⟩

theorem places_never_matter_shout :
    (shoutSession Loc.start).Matches (shoutSession ⟨7, 3⟩) ∧
    (shoutForm Loc.start).Matches (shoutForm ⟨9, 5⟩) ∧
    (shoutSession Loc.start).AnswersWithout Native.dumps 0 (shoutForm Loc.start) shoutAnswer ∧
    ∃ r', (shoutSession ⟨7, 3⟩).AnswersWithout Native.dumps 0 (shoutForm ⟨9, 5⟩) r' ∧
      shoutAnswer.Matches r' :=
  ⟨shoutSession_matches _ _, shoutForm_matches _ _, shoutSession_answers,
    places_never_matter 0 (shoutSession_matches _ _) (shoutForm_matches _ _) shoutSession_answers⟩

example : shoutAnswer.session.printedText = "hey\n" := by decide +kernel

end SmallLisp
