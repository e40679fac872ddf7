import Mathlib.Logic.Relation
import SmallLisp.Session.Run
import SmallLisp.Proofs.Eval.Limit

/-!
# What a host does with a session

A host runs programs, binds global names to data it has read, and clears the session. The programs
may end with a value or with a fault.

* `Session.Works`, `Session.Step`: one such thing, without and with clearing;
* `alike_of_works`: work changes no setting of the session;
* `keepsParents_of_steps`: whatever a host does, every frame stays inside the frame it was made in.
-/

namespace SmallLisp

open Session

/-! ## 1. Programs -/

theorem evalText_of_ok {src : Text} {n : Node} (h : parse src = .ok n) (fuel : Nat) (s : Session) :
    evalText fuel src s = (Evaluator.ofFuel fuel).eval s.root (.ofNode n) s := by
  unfold evalText
  rw [h]
  rfl

theorem evalText_of_error {src : Text} {e : ReadError} (h : parse src = .error e) (fuel : Nat)
    (s : Session) : evalText fuel src s = .error (.fault (.read e)) s := by
  unfold evalText
  rw [h]
  rfl

theorem alike_evalText (fuel : Nat) (src : Text) (s : Session) :
    s.Alike ((evalText fuel src).after s) := by
  unfold evalText
  split
  next n _ => exact progress_settings.eval fuel s.root (.ofNode n) s
  next => exact .refl s

/-- A program writes to the root frame and to new ones. -/
theorem extendsBut_evalText (fuel : Nat) (src : Text) (s : Session) :
    s.store.ExtendsBut s.root ((evalText fuel src).after s).store := by
  unfold evalText
  split
  next n _ => exact progress_frames.eval fuel s.root (.ofNode n) s
  next => exact .refl s.root s.store

/-! ## 2. Steps -/

/-- A program runs to its end, or a global name is bound to something that was read. -/
inductive Session.Works : Session → Session → Prop where
  | run {s : Session} {fuel : Nat} {src : Text} : Finished (evalText fuel src s) →
      Works s ((evalText fuel src).after s)
  | addGlobal (s : Session) (name : Text) (n : Node) : Works s (s.addGlobal name (.ofNode n))

/-- What a host does with a session. -/
inductive Session.Step : Session → Session → Prop where
  | works {s t : Session} : Works s t → Step s t
  | clear (s : Session) : Step s s.clear

theorem Session.Works.alike {s t : Session} (h : s.Works t) : s.Alike t := by
  cases h with
  | run => exact alike_evalText _ _ s
  | addGlobal => exact ⟨rfl, rfl, rfl, rfl, rfl, rfl, rfl, rfl⟩

theorem Session.Works.extendsBut {s t : Session} (h : s.Works t) :
    s.store.ExtendsBut s.root t.store := by
  cases h with
  | run => exact extendsBut_evalText _ _ s
  | addGlobal => exact Store.extendsBut_set s.store s.root _ _

/-- **Work changes no setting.** -/
theorem alike_of_works {s t : Session} (h : Relation.ReflTransGen Works s t) : s.Alike t := by
  induction h with
  | refl => exact .refl s
  | tail _ hwork ih => exact ih.trans hwork.alike

/-! ## 3. Parents -/

theorem Session.Step.keepsParents {s t : Session} (h : s.Step t) :
    s.store.KeepsParents t.store := by
  cases h with
  | works hwork => exact hwork.extendsBut.keepsParents
  | clear => exact ((Store.extends_alloc s.store _).but s.root).keepsParents

/-- **No frame is ever moved to another one.** -/
theorem keepsParents_of_steps {s t : Session} (h : Relation.ReflTransGen Step s t) :
    s.store.KeepsParents t.store := by
  induction h with
  | refl => exact .refl s.store
  | tail _ hstep ih => exact ih.trans hstep.keepsParents

end SmallLisp
