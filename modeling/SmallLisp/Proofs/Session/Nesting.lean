import Mathlib.Logic.Relation
import SmallLisp.Proofs.Eval.Barring
import SmallLisp.Proofs.Session.History

/-!
# Applications are nested

An observer is told when an application starts, and told again when it has succeeded. What it is
told in the course of an evaluation is a word of such notices:

* `Nested`: every application that starts also finishes, and what starts in between finishes before
  it does. Such is the word of every evaluation that gives a value;
* `Broken`: the applications with these names have started and not finished, all others are nested.
  Such is the word of every evaluation that fails; it lacks nothing but the ends of those
  applications (`Broken.completed`).

The journal of a session is this word, and its counts are how often each notice occurs in it
(`Session.Hears`). That is shown once for every step of an evaluation (`lasting_orderly`).
-/

namespace SmallLisp

open EvalM Evaluator Session

/-! ## 1. Words of notices -/

/-- What an observer is told about the application of a function with this name. -/
inductive Notice where
  | start (name : Text)
  | finish (name : Text)
deriving DecidableEq, Repr

/-- The notice that an entry of the journal stands for, if it stands for one. -/
def Event.notice? : Event → Option Notice
  | before name _ _ => some (.start name)
  | after name _ _ => some (.finish name)
  | probe _ _ _ _ => none

/-- Applications one after the other, each with its applications inside. -/
inductive Nested : List Notice → Prop where
  | nil : Nested []
  | call (name : Text) {inner more : List Notice} : Nested inner → Nested more →
      Nested (.start name :: (inner ++ .finish name :: more))

/-- Applications one after the other, of which the last may have been broken off inside. `names` are
    those that have started and not finished, the innermost first. -/
inductive Broken : List Text → List Notice → Prop where
  | whole {w : List Notice} : Nested w → Broken [] w
  | inside (name : Text) {names : List Text} {w inner : List Notice} : Nested w →
      Broken names inner → Broken (names ++ [name]) (w ++ .start name :: inner)

namespace Nested

variable {w w' : List Notice}

theorem append (h : Nested w) (h' : Nested w') : Nested (w ++ w') := by
  induction h with
  | nil => exact h'
  | call name hinner _ _ ih =>
    rw [List.cons_append, List.append_assoc, List.cons_append]
    exact .call name hinner ih

theorem single (name : Text) (h : Nested w) : Nested (.start name :: (w ++ [.finish name])) :=
  .call name h .nil

/-- An application finishes as often as it starts. -/
theorem count_finish (h : Nested w) (name : Text) :
    w.count (.finish name) = w.count (.start name) := by
  induction h with
  | nil => rfl
  | call name' _ _ ihinner ihmore =>
    simp only [List.count_cons, List.count_append, ihinner, ihmore, beq_iff_eq, Notice.start.injEq,
      Notice.finish.injEq, reduceCtorEq, if_false]
    omega

end Nested

namespace Broken

variable {names : List Text} {w w' : List Notice}

theorem after (hw : Nested w) (h : Broken names w') : Broken names (w ++ w') := by
  cases h with
  | whole hw' => exact .whole (hw.append hw')
  | inside name hfront hinner =>
    rw [← List.append_assoc]
    exact .inside name (hw.append hfront) hinner

/-- An application that fails inside is broken off itself. -/
theorem enclosed (name : Text) (h : Broken names w) :
    Broken (names ++ [name]) (.start name :: w) := .inside name .nil h

/-- **Nothing is missing but the ends of what was broken off**, from the inside out. -/
theorem completed (h : Broken names w) : Nested (w ++ names.map .finish) := by
  induction h with
  | whole hw => simpa using hw
  | inside name hw _ ih =>
    have hword := hw.append (ih.single name)
    simpa using hword

/-- No application finishes more often than it starts. -/
theorem count_finish_le (h : Broken names w) (name : Text) :
    w.count (.finish name) ≤ w.count (.start name) := by
  have hcount := h.completed.count_finish name
  have hnone : (names.map Notice.finish).count (.start name) = 0 := by simp [List.count_eq_zero]
  simp only [List.count_append, hnone] at hcount
  omega

end Broken

/-! ## 2. What observers note -/

theorem Tally.count_cons (name n : Text) (k : Nat) (t : Tally) :
    Tally.count name ((n, k) :: t) = if name = n then k else t.count name := by
  unfold Tally.count
  by_cases h : name = n
  · simp [h]
  · simp [List.lookup_cons, h, beq_eq_false_iff_ne.mpr h]

theorem Tally.count_bump (name name' : Text) (t : Tally) :
    (t.bump name).count name' = t.count name' + if name' = name then 1 else 0 := by
  induction t with
  | nil =>
    rw [Tally.bump, Tally.count_cons]
    simp [Tally.count]
  | cons entry t ih =>
    obtain ⟨n, k⟩ := entry
    unfold Tally.bump
    split
    · rename_i hn
      subst hn
      simp only [Tally.count_cons]
      split <;> simp
    · rename_i hn
      simp only [Tally.count_cons, ih]
      split
      · rename_i h
        subst h
        simp [hn]
      · rfl

/-- The notes in session `t` are those in `s` after these observers were told the notices `w` in
    order: a journal has each of them once for every observer that keeps it, and the counts have
    grown by as many as there are, once for every observer that counts. -/
structure Session.Notes (os : List Observer) (w : List Notice) (s t : Session) : Prop where
  journal : ∃ es : List Event, t.journal = es.reverse ++ s.journal ∧
    es.filterMap Event.notice? = w.flatMap (List.replicate (os.count .journal))
  started (name : Text) : t.started.count name =
    s.started.count name + os.count .tally * w.count (.start name)
  finished (name : Text) : t.finished.count name =
    s.finished.count name + os.count .tally * w.count (.finish name)

/-- The session `t` is as `s`, after the observers were told the notices `w` in order. -/
structure Session.Hears (s : Session) (w : List Notice) (t : Session) : Prop where
  observers : t.observers = s.observers
  notes : Notes s.observers w s t

namespace Session.Notes

variable {o : Observer} {os : List Observer} {s t u : Session} {w w' : List Notice}

/-- A change that leaves the notes alone. -/
theorem quiet (hjournal : t.journal = s.journal) (hstarted : t.started = s.started)
    (hfinished : t.finished = s.finished) : Notes os [] s t :=
  ⟨⟨[], hjournal, rfl⟩, fun _ => by simp [hstarted], fun _ => by simp [hfinished]⟩

/-- What is told in two parts is told in order. -/
theorem trans (h : Notes os w s t) (h' : Notes os w' t u) : Notes os (w ++ w') s u := by
  refine ⟨?_, fun name => ?_, fun name => ?_⟩
  · obtain ⟨es, hes, hword⟩ := h.journal
    obtain ⟨es', hes', hword'⟩ := h'.journal
    exact ⟨es ++ es', by simp [hes, hes'], by simp [hword, hword']⟩
  · rw [h'.started, h.started, List.count_append, Nat.mul_add, Nat.add_assoc]
  · rw [h'.finished, h.finished, List.count_append, Nat.mul_add, Nat.add_assoc]

/-- Observers are told a notice one after the other. -/
theorem cons {n : Notice} (h : Notes [o] [n] s t) (h' : Notes os [n] t u) :
    Notes (o :: os) [n] s u := by
  have hcount (p : Observer) : (o :: os).count p = [o].count p + os.count p := by
    rw [← List.singleton_append, List.count_append]
  refine ⟨?_, fun name => ?_, fun name => ?_⟩
  · obtain ⟨es, hes, hword⟩ := h.journal
    obtain ⟨es', hes', hword'⟩ := h'.journal
    refine ⟨es ++ es', by simp [hes, hes'], ?_⟩
    rw [List.filterMap_append, hword, hword', hcount]
    simp [List.replicate_append_replicate]
  · rw [h'.started, h.started, hcount, Nat.add_mul, Nat.add_assoc]
  · rw [h'.finished, h.finished, hcount, Nat.add_mul, Nat.add_assoc]

theorem foldl {n : Notice} {tell : Session → Observer → Session}
    (htell : ∀ s o, Notes [o] [n] s (tell s o)) (os : List Observer) (s : Session) :
    Notes os [n] s (os.foldl tell s) := by
  induction os generalizing s with
  | nil => exact ⟨⟨[], rfl, by simp⟩, fun _ => by simp, fun _ => by simp⟩
  | cons o os ih => exact (htell s o).cons (ih _)

theorem tellBefore (name : Text) (args : List Value) (s : Session) (o : Observer) :
    Notes [o] [.start name] s (Session.tellBefore name args s o) := by
  cases o with
  | tally =>
    refine ⟨⟨[], rfl, by simp⟩, fun name' => ?_, fun name' => by simp [Session.tellBefore]⟩
    by_cases h : name' = name <;>
      simp [Session.tellBefore, Tally.count_bump, h, Ne.symm]
  | journal =>
    exact ⟨⟨[.before name (Value.joined args) s.depth], rfl, rfl⟩,
      fun _ => by simp [Session.tellBefore, record], fun _ => by simp [Session.tellBefore, record]⟩

theorem tellAfter (name : Text) (v : Value) (s : Session) (o : Observer) :
    Notes [o] [.finish name] s (Session.tellAfter name v s o) := by
  cases o with
  | tally =>
    refine ⟨⟨[], rfl, by simp⟩, fun name' => by simp [Session.tellAfter], fun name' => ?_⟩
    by_cases h : name' = name <;>
      simp [Session.tellAfter, Tally.count_bump, h, Ne.symm]
  | journal =>
    exact ⟨⟨[.after name v.sexp s.depth], rfl, rfl⟩, fun _ => by simp [Session.tellAfter, record],
      fun _ => by simp [Session.tellAfter, record]⟩

end Session.Notes

namespace Session.Hears

variable {s t u : Session} {w w' : List Notice}

/-- A change that leaves the observers and their notes alone. -/
theorem quiet (hobservers : t.observers = s.observers) (hjournal : t.journal = s.journal)
    (hstarted : t.started = s.started) (hfinished : t.finished = s.finished) : s.Hears [] t :=
  ⟨hobservers, .quiet hjournal hstarted hfinished⟩

theorem refl (s : Session) : s.Hears [] s := quiet rfl rfl rfl rfl

theorem trans (h : s.Hears w t) (h' : t.Hears w' u) : s.Hears (w ++ w') u :=
  ⟨h'.observers.trans h.observers, h.notes.trans (h.observers ▸ h'.notes)⟩

/-- The count of applications in progress is nothing that observers note. -/
theorem withDepth {depth : Nat} (h : Hears { s with depth } w t) (depth' : Nat) :
    s.Hears w { t with depth := depth' } :=
  ⟨h.observers, h.notes.journal, h.notes.started, h.notes.finished⟩

/-- An entry of the journal that is no notice. -/
theorem probe (s : Session) (name : Text) (scopes : Nat) (args : Text) :
    s.Hears [] (s.record (.probe name s.depth scopes args)) :=
  ⟨rfl, ⟨⟨[.probe name s.depth scopes args], rfl, rfl⟩, fun _ => by simp [record],
    fun _ => by simp [record]⟩⟩

theorem announce (s : Session) (name : Text) (args : List Value) :
    s.Hears [.start name] (s.announce name args) := by
  have hlogged : s.Hears [] (if s.trace then s.log (s.traceLine name args) else s) := by
    split
    · exact quiet rfl rfl rfl rfl
    · exact refl s
  refine hlogged.trans ⟨(progress_settings.announce 0 s name args).observers.trans
    hlogged.observers.symm, ?_⟩
  exact .foldl (.tellBefore name args) _ _

theorem conclude (s : Session) (name : Text) (v : Value) :
    s.Hears [.finish name] (s.conclude name v) :=
  ⟨(progress_settings.conclude 0 s name v).observers, .foldl (.tellAfter name v) _ s⟩

end Session.Hears

/-! ## 3. Evaluations -/

/-- What the observers of session `s` are told until an action ends in this way: applications that
    are nested if it gives a value, and broken off if it fails. -/
inductive Answer.Orderly (s : Session) {α : Type} : Answer α → Prop where
  | ok {a : α} {t : Session} {w : List Notice} : Nested w → s.Hears w t → Orderly s (.ok a t)
  | error {e : Stop} {t : Session} {names : List Text} {w : List Notice} : Broken names w →
      s.Hears w t → Orderly s (.error e t)

namespace Answer.Orderly

variable {α β : Type} {s t : Session} {w : List Notice}

theorem bind {m : EvalM α} {k : α → EvalM β} (hm : Orderly s (m s))
    (hk : ∀ a t, Orderly t (k a t)) : Orderly s ((m >>= k) s) := by
  generalize hr : m s = r at hm
  cases hm with
  | @ok a t w hw ht =>
    rw [bind_of_ok hr]
    have hmore := hk a t
    generalize k a t = r' at hmore
    cases hmore with
    | ok hw' hu => exact .ok (hw.append hw') (ht.trans hu)
    | error hw' hu => exact .error (.after hw hw') (ht.trans hu)
  | error hw ht =>
    rw [bind_of_error hr]
    exact .error hw ht

/-- An application is around what is told inside it; if it fails inside, it is broken off. -/
theorem observed (name : Text) (args : List Value) {m : EvalM Value} (hm : ∀ t, Orderly t (m t))
    (s : Session) : Orderly s (EvalM.observed name args m s) := by
  have hstart := Hears.announce s name args
  have hinner := hm (s.announce name args)
  show Orderly s ((m >>= fun v => do modify (·.conclude name v); pure v) (s.announce name args))
  generalize hr : m (s.announce name args) = r at hinner
  cases hinner with
  | @ok v t w hw ht =>
    rw [bind_of_ok hr]
    exact .ok (hw.single name) (hstart.trans (ht.trans (Hears.conclude t name v)))
  | error hw ht =>
    rw [bind_of_error hr]
    exact .error (hw.enclosed name) (hstart.trans ht)

theorem checkDepth (loc : Loc) (s : Session) : Orderly s (EvalM.checkDepth loc s) := by
  by_cases h : 0 < s.limit ∧ s.limit < s.depth
  · rw [checkDepth_exceeded loc h.1 h.2]
    exact .error (.whole .nil) (.refl s)
  · rw [checkDepth_within loc (by omega)]
    exact .ok .nil (.refl s)

theorem nested {m : EvalM α} (hm : ∀ t, Orderly t (m t)) (s : Session) :
    Orderly s (EvalM.nested m s) := by
  have hinner := hm { s with depth := s.depth + 1 }
  unfold EvalM.nested
  generalize m { s with depth := s.depth + 1 } = r at hinner
  cases hinner with
  | ok hw ht => exact .ok hw (ht.withDepth _)
  | error hw ht => exact .error hw (ht.withDepth _)

theorem located (loc : Loc) {m : EvalM α} (hm : Orderly s (m s)) :
    Orderly s (EvalM.located loc m s) := by
  unfold EvalM.located
  generalize m s = r at hm
  cases hm with
  | ok hw ht => exact .ok hw ht
  | @error e _ _ _ hw ht => cases e <;> exact .error hw ht

end Answer.Orderly

/-- **Every step of an evaluation leaves applications nested or broken off.** -/
theorem lasting_orderly : Lasting fun _ _ act => ∀ s, Answer.Orderly s (act s) where
  pure _ s := .ok .nil (.refl s)
  fail _ s := .error (.whole .nil) (.refl s)
  outOfFuel s := .error (.whole .nil) (.refl s)
  bind hm hk s := .bind (hm s) hk
  look _ hk s := hk s.view s
  bindName _ _ _ := .ok .nil (.quiet rfl rfl rfl rfl)
  put _ _ := .ok .nil (.quiet rfl rfl rfl rfl)
  probe name args s := .ok .nil (.probe s name _ args)
  inside _ _ _ _ hk _ := .bind (.ok .nil (.quiet rfl rfl rfl rfl)) fun frame => hk frame
  observed name args _ hm := .observed name args hm
  nested loc _ hm := .nested fun s => .bind (.checkDepth loc s) fun _ => hm
  located loc _ hm s := .located loc (hm s)

theorem orderly_evalText (fuel : Nat) (src : Text) (s : Session) :
    Answer.Orderly s (evalText fuel src s) := by
  cases hparse : parse src with
  | ok n =>
    rw [evalText_of_ok hparse]
    exact (lasting_orderly.ofFuel fuel).1 s.root (.ofNode n) s
  | error e =>
    rw [evalText_of_error hparse]
    exact .error (.whole .nil) (.refl s)

/-! ## 4. Counts in a session -/

/-- One thing that a host does with a session. An evaluation that fails is not `fine`. -/
inductive Session.Deed : (fine : Bool) → Session → Session → Prop where
  | run (fuel : Nat) (src : Text) (s : Session) :
      Deed (Answer.isOk (evalText fuel src s)) s ((evalText fuel src).after s)
  | eval (fuel : Nat) (env : FrameId) (form : Value) (s : Session) :
      Deed (Answer.isOk ((ofFuel fuel).eval env form s)) s (((ofFuel fuel).eval env form).after s)
  | apply (fuel : Nat) (env : FrameId) (f : Value) (vals : List Value) (s : Session) :
      Deed (Answer.isOk ((ofFuel fuel).apply env f vals s)) s
        (((ofFuel fuel).apply env f vals).after s)
  | countCalls (s : Session) : Deed true s s.countCalls
  | keepJournal (s : Session) : Deed true s { s with observers := s.observers ++ [.journal] }
  | addGlobal (s : Session) (name : Text) (v : Value) : Deed true s (s.addGlobal name v)
  | clear (s : Session) : Deed true s s.clear
  | adjust (s : Session) (limit : Nat) (trace verbose : Bool) (printer : Printer) :
      Deed true s { s with limit, trace, verbose, printer }
  | print (s : Session) (t : Text) : Deed true s (s.print t)

/-- What a host has done leads from one session to the other, whether it was fine or not. -/
def Session.Past : Session → Session → Prop :=
  Relation.ReflTransGen fun s t => ∃ fine, Deed fine s t

/-- The counts in `t` are those in `s` and what has been counted since: applications that are
    nested, or broken off if not all went well. Whoever counts goes on counting. -/
structure Session.Counted (fine : Bool) (s t : Session) : Prop where
  tally : .tally ∈ s.observers → .tally ∈ t.observers
  word : ∃ w, (∃ names, Broken names w) ∧ (fine = true → Nested w) ∧ ∀ name,
    t.started.count name =
      s.started.count name + s.observers.count .tally * w.count (.start name) ∧
    t.finished.count name =
      s.finished.count name + s.observers.count .tally * w.count (.finish name)

/-- A change that leaves the counts alone. -/
theorem Session.Counted.quiet {s t : Session} (htally : .tally ∈ s.observers → .tally ∈ t.observers)
    (hstarted : t.started = s.started) (hfinished : t.finished = s.finished) :
    s.Counted true t :=
  ⟨htally, [], ⟨[], .whole .nil⟩, fun _ => .nil, fun _ => by simp [hstarted, hfinished]⟩

theorem counted_of_orderly {act : EvalM Value} {s : Session} (h : Answer.Orderly s (act s)) :
    s.Counted (Answer.isOk (act s)) (act.after s) := by
  unfold EvalM.after
  generalize act s = r at h
  cases h with
  | ok hw ht =>
    exact ⟨fun hmem => ht.observers ▸ hmem, _, ⟨[], .whole hw⟩, fun _ => hw,
      fun name => ⟨ht.notes.started name, ht.notes.finished name⟩⟩
  | error hw ht =>
    exact ⟨fun hmem => ht.observers ▸ hmem, _, ⟨_, hw⟩, fun hfine => (by cases hfine),
      fun name => ⟨ht.notes.started name, ht.notes.finished name⟩⟩

theorem Session.tally_mem_countCalls (s : Session) : .tally ∈ s.countCalls.observers := by
  unfold countCalls
  split
  · rename_i hmem
    simpa using hmem
  · simp

theorem Session.started_countCalls (s : Session) : s.countCalls.started = s.started := by
  unfold countCalls
  split <;> rfl

theorem Session.finished_countCalls (s : Session) : s.countCalls.finished = s.finished := by
  unfold countCalls
  split <;> rfl

theorem Session.Deed.counted {fine : Bool} {s t : Session} (h : Deed fine s t) :
    s.Counted fine t := by
  cases h with
  | run fuel src => exact counted_of_orderly (orderly_evalText fuel src s)
  | eval fuel env form => exact counted_of_orderly ((lasting_orderly.ofFuel fuel).1 env form s)
  | apply fuel env f vals =>
    exact counted_of_orderly ((lasting_orderly.ofFuel fuel).2 env f vals s)
  | countCalls =>
    exact .quiet (fun _ => s.tally_mem_countCalls) s.started_countCalls s.finished_countCalls
  | keepJournal => exact .quiet (List.mem_append_left _) rfl rfl
  | addGlobal | clear | adjust | print => exact .quiet id rfl rfl

/-- Counts that belong together: what has finished has started, and without anybody who counts there
    is no difference. -/
structure Session.Consistent (s : Session) : Prop where
  le (name : Text) : s.finished.count name ≤ s.started.count name
  eq (h : .tally ∉ s.observers) (name : Text) : s.finished.count name = s.started.count name

namespace Session.Counted

variable {fine : Bool} {s t : Session}

theorem consistent (h : s.Counted fine t) (hs : s.Consistent) : t.Consistent := by
  obtain ⟨w, ⟨names, hw⟩, -, hcounts⟩ := h.word
  refine ⟨fun name => ?_, fun hnone name => ?_⟩
  · have hle := Nat.mul_le_mul_left (s.observers.count .tally) (hw.count_finish_le name)
    have hs' := hs.le name
    rw [(hcounts name).1, (hcounts name).2]
    omega
  · have hnone' : .tally ∉ s.observers := fun hmem => hnone (h.tally hmem)
    rw [(hcounts name).1, (hcounts name).2, List.count_eq_zero_of_not_mem hnone', hs.eq hnone']
    simp

/-- As long as all goes well, what has started has finished. -/
theorem eq_of_fine (h : s.Counted true t)
    (hs : ∀ name, s.finished.count name = s.started.count name) (name : Text) :
    t.finished.count name = t.started.count name := by
  obtain ⟨w, -, hw, hcounts⟩ := h.word
  rw [(hcounts name).1, (hcounts name).2, (hw rfl).count_finish, hs]

end Session.Counted

theorem consistent_of_past {version : Text} {s : Session} (h : (fresh version).Past s) :
    s.Consistent := by
  induction h with
  | refl => exact ⟨fun _ => Nat.le_refl _, fun _ _ => rfl⟩
  | tail _ hdeed ih =>
    obtain ⟨fine, hdeed⟩ := hdeed
    exact hdeed.counted.consistent ih

theorem counts_of_fine {s t : Session} (h : Relation.ReflTransGen (Deed true) s t)
    (hs : ∀ name, s.finished.count name = s.started.count name) (name : Text) :
    t.finished.count name = t.started.count name := by
  induction h generalizing name with
  | refl => exact hs name
  | tail _ hdeed ih => exact hdeed.counted.eq_of_fine ih name

/-! ## 5. The result -/

/-- If one observer keeps the journal, what the action adds to it is nested when the action gives a
    value. When it fails, applications with some names are broken off, and with their ends added it
    would be nested. -/
def EvalM.JournalNests (act : EvalM Value) : Prop :=
  ∀ s : Session, s.observers.count .journal = 1 →
    ∃ es : List Event, (act.after s).journal = es.reverse ++ s.journal ∧
      (∀ v t, act s = .ok v t → Nested (es.filterMap Event.notice?)) ∧
      ∀ e t, act s = .error e t → ∃ names, Broken names (es.filterMap Event.notice?) ∧
        Nested (es.filterMap Event.notice? ++ names.map .finish)

theorem journalNests_of_orderly {act : EvalM Value} (h : ∀ s, Answer.Orderly s (act s)) :
    act.JournalNests := by
  intro s hone
  have hs := h s
  have hword (w : List Notice) : w.flatMap (List.replicate (s.observers.count .journal)) = w := by
    rw [hone]
    exact List.flatMap_singleton' w
  unfold EvalM.after
  generalize act s = r at hs
  cases hs with
  | ok hw ht =>
    obtain ⟨es, hes, hnotices⟩ := ht.notes.journal
    rw [hword] at hnotices
    exact ⟨es, hes, fun _ _ _ => hnotices ▸ hw, fun _ _ he => (by cases he)⟩
  | error hw ht =>
    obtain ⟨es, hes, hnotices⟩ := ht.notes.journal
    rw [hword] at hnotices
    refine ⟨es, hes, fun _ _ hok => (by cases hok), fun _ _ _ => ⟨_, hnotices ▸ hw, ?_⟩⟩
    rw [hnotices]
    exact hw.completed

/-- **Applications are nested.** Of every evaluation, of every application to values and of every
    program, the journal that one observer keeps is nested if it gives a value; if it fails, the
    journal lacks only the ends of the applications that were broken off. So, whatever has been done
    with a session, no name has been counted more often at the end of an application than at its
    start; and the counts are equal if all has been fine since calls were first counted, however
    often that was asked for. -/
theorem applications_nest :
    (∀ n env form, ((ofFuel n).eval env form).JournalNests) ∧
    (∀ n env f vals, ((ofFuel n).apply env f vals).JournalNests) ∧
    (∀ n src, (evalText n src).JournalNests) ∧
    ∀ version s, (fresh version).Past s →
      (∀ name, s.finished.count name ≤ s.started.count name) ∧
      (.tally ∉ s.observers → ∀ t, Relation.ReflTransGen (Deed true) s.countCalls t →
        ∀ name, t.finished.count name = t.started.count name) := by
  refine ⟨fun n env form => journalNests_of_orderly ((lasting_orderly.ofFuel n).1 env form),
    fun n env f vals => journalNests_of_orderly ((lasting_orderly.ofFuel n).2 env f vals),
    fun n src => journalNests_of_orderly (orderly_evalText n src), fun version s hpast => ?_⟩
  have hs := consistent_of_past hpast
  refine ⟨hs.le, fun hnone t hfine => counts_of_fine hfine fun name => ?_⟩
  rw [started_countCalls, finished_countCalls]
  exact hs.eq hnone name

/-- A session with a journal, in which a program has failed before calls are counted. -/
def watchedSession : Session :=
  (evalText 50 "(list (car \"a\"))").after { fresh "0.0.0" with observers := [.journal] }

/-- Calls of a closure inside each other, the inner one as an argument, and one through `apply`. -/
def pairingSource : Text :=
  Text.ofString "(defun pair (x) (list x x)) (pair (pair \"a\")) (apply pair '(b))"

/-- A call that fails inside another one, after a call that succeeds. -/
def failingSource : Text := Text.ofString "(list (pair \"a\") (apply pair (car \"a\")))"

/-- The session after calls were counted, twice asked for, and the first program has run. -/
def pairedSession : Session :=
  (evalText 50 pairingSource).after watchedSession.countCalls.countCalls

theorem applications_nest_paired :
    (fresh "0.0.0").Past watchedSession ∧ .tally ∉ watchedSession.observers ∧
    Relation.ReflTransGen (Deed true) watchedSession.countCalls pairedSession ∧
    (∀ name, pairedSession.finished.count name = pairedSession.started.count name) ∧
    (pairedSession.started.count "pair", pairedSession.started.count "car") = (3, 0) ∧
    pairedSession.observers.count .journal = 1 ∧
    Answer.isOk (evalText 50 failingSource pairedSession) = false ∧
    ∃ es : List Event, ((evalText 50 failingSource).after pairedSession).journal =
      es.reverse ++ pairedSession.journal ∧
      ∀ e t, evalText 50 failingSource pairedSession = .error e t →
        ∃ names, Broken names (es.filterMap Event.notice?) ∧
          Nested (es.filterMap Event.notice? ++ names.map .finish) := by
  have hpast : (fresh "0.0.0").Past watchedSession :=
    .tail (.single ⟨_, .keepJournal _⟩) ⟨_, .run 50 _ _⟩
  have hnone : .tally ∉ watchedSession.observers := by decide +kernel
  have hok : Answer.isOk (evalText 50 pairingSource watchedSession.countCalls.countCalls) =
    true := by decide +kernel
  have hfine : Relation.ReflTransGen (Deed true) watchedSession.countCalls pairedSession :=
    .tail (.single (.countCalls _)) (hok ▸ .run 50 pairingSource _)
  have hone : pairedSession.observers.count .journal = 1 := by decide +kernel
  obtain ⟨es, hes, -, herror⟩ := applications_nest.2.2.1 50 failingSource pairedSession hone
  exact ⟨hpast, hnone, hfine, (applications_nest.2.2.2 _ _ hpast).2 hnone _ hfine,
    by decide +kernel, hone, by decide +kernel, es, hes, herror⟩

example : ((((evalText 50 failingSource).after pairedSession).journal.take 7).reverse.filterMap
    Event.notice?) = [.start "list", .start "pair", .start "list", .finish "list", .finish "pair",
      .start "apply", .start "car"] := by decide +kernel

end SmallLisp
