import SmallLisp.Proofs.Eval.Observers
import SmallLisp.Proofs.Eval.Renumbering
import SmallLisp.Proofs.Session.History

/-!
# A cleared session is as good as new

Clearing starts over with a new root frame. The frames of before are still in the store, the output
of before was put out, and the observers go on watching. None of that can be told from how a program
runs afterwards: it is answered as in a session that has just been set up (`clear_forgets`).

Two facts carry this. Frames are counted from different bases in the two sessions, which makes no
difference (`agree_renumbering`), and observers do not change how a program runs (`eval_unwatched`).
-/

namespace SmallLisp

open EvalM Evaluator Session

/-! ## 1. Replies -/

/-- What is seen of a value from outside. -/
structure Appearance where
  typeName : String
  sexp : Text
  display : Text
  loc : Loc
deriving DecidableEq, Repr

/-- How a value is shown. -/
def Value.appearance (v : Value) : Appearance := ⟨v.typeName, v.sexp, v.display, v.loc⟩

/-- What is seen of a program from outside: the value it ends with or its fault, and what it puts
    out meanwhile. -/
structure Reply where
  result : Except Fault Appearance
  output : List Output

/-- The reply of a program that was started in session `s` and has given an answer. -/
def Answer.reply (s : Session) : Answer Value → Option Reply
  | .ok v t => some ⟨.ok v.appearance, t.outputSince s⟩
  | .error (.fault f) t => some ⟨.error f, t.outputSince s⟩
  | .error .outOfFuel _ => none

/-- The reply to source text, if the program ends within the fuel. -/
def Session.reply (s : Session) (fuel : Nat) (src : Text) : Option Reply :=
  Answer.reply s (evalText fuel src s)

theorem Value.Like.appearance {F : FrameId → FrameId → Prop} {v v' : Value}
    (h : v.Like Eq F v') : v.appearance = v'.appearance := by
  have hloc : v.loc = v'.loc := h.loc rfl
  unfold Value.appearance
  rw [h.typeName, h.sexp, h.display, hloc]

theorem Fault.Like.eq {f f' : Fault} (h : Fault.Like Eq f f') : f = f' := by
  cases h with
  | read e => rfl
  | malformed => rfl
  | @eval e e' he =>
    cases e
    cases e'
    obtain ⟨rfl, rfl⟩ := he
    rfl

/-! ## 2. Observers and numbers of frames are not seen -/

theorem Answer.reply_unwatched (s : Session) (r : Answer Value) :
    Answer.reply s.unwatched (Answer.unwatched r) = Answer.reply s r := by
  rcases r with ⟨v, t⟩ | ⟨f | _, t⟩ <;> rfl

theorem reply_unwatched (s : Session) (fuel : Nat) (src : Text) :
    s.unwatched.reply fuel src = s.reply fuel src := by
  have heval : Answer.unwatched (evalText fuel src s.unwatched) =
      Answer.unwatched (evalText fuel src s) := by
    cases hparse : parse src with
    | ok n =>
      rw [evalText_of_ok hparse, evalText_of_ok hparse]
      exact eval_unwatched fuel s.root (.ofNode n) s
    | error e =>
      rw [evalText_of_error hparse, evalText_of_error hparse]
      rfl
  calc s.unwatched.reply fuel src
      = Answer.reply s.unwatched (Answer.unwatched (evalText fuel src s.unwatched)) :=
        (Answer.reply_unwatched s.unwatched _).symm
    _ = Answer.reply s.unwatched (Answer.unwatched (evalText fuel src s)) := by rw [heval]
    _ = s.reply fuel src := Answer.reply_unwatched s _

/-- Answers that correspond both ways give the same reply. -/
theorem reply_of_agree {base base' n : Nat} {s s' : Session} {r r' : Answer Value}
    (h : (Correspondence.renumbering base base' s.output s'.output).Agree
      (Correspondence.renumbering base base' s.output s'.output).Value n r r')
    (h' : (Correspondence.renumbering base' base s'.output s.output).Agree
      (Correspondence.renumbering base' base s'.output s.output).Value n r' r) :
    Answer.reply s r = Answer.reply s' r' := by
  cases h with
  | ok _ hv ht =>
    simp only [Answer.reply, Value.Like.appearance hv, Report.Since.outputSince ht.report]
  | fault _ hf ht =>
    simp only [Answer.reply, Fault.Like.eq hf, Report.Since.outputSince ht.report]
  | outOfFuel =>
    -- the other run has no answer either: it would correspond to one of this run
    cases h'
    rfl

/-- Sessions without observers that differ in the numbers of their frames, and in what they have put
    out, give the same replies. -/
theorem reply_renumbering {base base' n : Nat} {s s' : Session}
    (h : (Correspondence.renumbering base base' s.output s'.output).Sessions n s s')
    (h' : (Correspondence.renumbering base' base s'.output s.output).Sessions n s' s)
    (fuel : Nat) (src : Text) : s.reply fuel src = s'.reply fuel src := by
  unfold Session.reply
  cases hparse : parse src with
  | ok m =>
    have hform (b b' : Nat) :
        (Value.ofNode m).Like Eq (Renumbered b b' n) (.ofNode m) :=
      Value.like_ofNode (fun _ => rfl) m
    rw [evalText_of_ok hparse, evalText_of_ok hparse]
    exact reply_of_agree (agree_renumbering h h.root (hform _ _) fuel)
      (agree_renumbering h' h'.root (hform _ _) fuel)
  | error e =>
    have hnothing (t : Session) : t.outputSince t = [] :=
      @outputSince_of_append t t [] rfl
    rw [evalText_of_error hparse, evalText_of_error hparse]
    simp only [Answer.reply, hnothing]

/-! ## 3. Clearing -/

/-- New root frames in two sessions with the same settings that nobody watches. -/
theorem sessions_clear (s s' : Session) (hversion : s.version = s'.version)
    (hlimit : s.limit = s'.limit) (htrace : s.trace = s'.trace) (hverbose : s.verbose = s'.verbose)
    (hprinter : s.printer = s'.printer) (hnumbers : s.printer.IgnoresNumbers)
    (hdepth : s.depth = s'.depth) :
    (Correspondence.renumbering s.store.frames.size s'.store.frames.size s.output
      s'.output).Sessions (1 : Nat) s.clear.unwatched s'.clear.unwatched where
  version := hversion
  store := by
    show Store.Renumbers _ _ 1 (s.store.newPrelude s.version).2 (s'.store.newPrelude s'.version).2
    rw [hversion]
    exact Store.Renumbers.newPrelude s.store s'.store s'.version
  root := ⟨0, Nat.one_pos, rfl, rfl⟩
  limit := hlimit
  trace := htrace
  verbose := hverbose
  printer := ⟨hprinter, hnumbers⟩
  depth := hdepth
  observers := rfl
  report := ⟨⟨[], rfl, rfl⟩, rfl, rfl, rfl⟩

/-- A session with these settings before it has any frame. Clearing it gives a new session. -/
def Session.blank (version : Text) (limit : Nat) (trace verbose : Bool) (printer : Printer) :
    Session :=
  ⟨version, Store.empty, 0, limit, trace, verbose, printer, 0, [], [], [], [], []⟩

/-- **Clearing forgets everything a program did.** Start from a session with no application in
    progress, as a host has it between programs, whose dumps do not tell the numbers of frames.
    Whatever programs then run in it, with a value or with a fault, and whatever global names are
    bound to data: once it is cleared, every program is answered as in a fresh session that has the
    same settings and no observers. It ends for the same fuel, with a value that looks the same or
    with the same fault, and puts out the same. -/
theorem clear_forgets {s t : Session} (hs : s.depth = 0) (hprinter : s.printer.IgnoresNumbers)
    (h : Relation.ReflTransGen Works s t) (fuel : Nat) (src : Text) :
    t.clear.reply fuel src =
      Session.reply
        { fresh s.version with
          limit := s.limit, trace := s.trace, verbose := s.verbose, printer := s.printer }
        fuel src := by
  have hst := alike_of_works h
  let new := Session.blank s.version s.limit s.trace s.verbose s.printer
  have hdepth : t.depth = new.depth := hst.depth.trans hs
  have hnumbers : t.printer.IgnoresNumbers := hst.printer ▸ hprinter
  calc t.clear.reply fuel src
      = t.clear.unwatched.reply fuel src := (reply_unwatched t.clear fuel src).symm
    _ = new.clear.unwatched.reply fuel src :=
        reply_renumbering
          (sessions_clear t new hst.version hst.limit hst.trace hst.verbose hst.printer hnumbers
            hdepth)
          (sessions_clear new t hst.version.symm hst.limit.symm hst.trace.symm hst.verbose.symm
            hst.printer.symm hprinter hdepth.symm) fuel src
    _ = _ := rfl

/-- A program that gives a reply runs to its end. -/
theorem works_of_reply {s : Session} (fuel : Nat) (src : Text)
    (h : (s.reply fuel src).isSome = true) : s.Works ((evalText fuel src).after s) := by
  refine .run ?_
  unfold Session.reply at h
  generalize evalText fuel src s = r at h ⊢
  rcases r with ⟨v, t⟩ | ⟨f | _, t⟩
  · trivial
  · trivial
  · cases h

/-- A traced session with counted calls, in which a function was defined. -/
def tracedSession : Session :=
  (evalText 50 "(defun twice (x) (list x x))").after (configured "0.0.0" 7 true true)

/-- Then a call was printed before the program failed, and a function of the prelude was replaced by
    a string. -/
def workedSession : Session :=
  ((evalText 50 "(println \"twice\" (twice \"a\")) (missing)").after tracedSession).addGlobal
    "list" (.ofNode (.string ⟨Loc.start, false⟩ "no function"))

theorem clear_forgets_worked : (configured "0.0.0" 7 true true).depth = 0 ∧
    Relation.ReflTransGen Works (configured "0.0.0" 7 true true) workedSession ∧
    workedSession.clear.reply 50 "(println (list \"b\")) (twice \"c\")" =
      Session.reply
        { fresh "0.0.0" with limit := 7, trace := true, verbose := false, printer := .plain }
        50 "(println (list \"b\")) (twice \"c\")" := by
  have hdefined : (configured "0.0.0" 7 true true).Works tracedSession :=
    works_of_reply 50 _ (by decide +kernel)
  have hfailed : tracedSession.Works _ :=
    works_of_reply 50 "(println \"twice\" (twice \"a\")) (missing)" (by decide +kernel)
  have hworks : Relation.ReflTransGen Works (configured "0.0.0" 7 true true) workedSession :=
    ((Relation.ReflTransGen.single hdefined).tail hfailed).tail (.addGlobal _ _ _)
  exact ⟨rfl, hworks, clear_forgets rfl Printer.ignoresNumbers_plain hworks 50 _⟩

example : workedSession.printedText = "twice (a a)\n" := by decide +kernel

end SmallLisp
