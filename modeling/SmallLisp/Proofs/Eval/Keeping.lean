import SmallLisp.Proofs.Eval.Checks

/-!
# Conditions that evaluation does not lead out of

If a condition on values is one that evaluation does not lead out of (`Value.Closed`), and all
values that are bound satisfy it, then so does all that an evaluation gives and binds, and all that
is bound whenever a function is applied on the way.

* `Store.Binds`: every value bound in a store satisfies a condition;
* `stable_binds`: no single step binds another value;
* `keeps_checking`: so no evaluation does, however it ends.
-/

namespace SmallLisp

open EvalM Evaluator

/-! ## 1. Bound values -/

/-- Every value that is bound in a frame of the store satisfies the condition. -/
def Store.Binds (P : Value → Prop) (st : Store) : Prop :=
  ∀ i f, st.frame? i = some f → ∀ b ∈ f.bindings, P b.2

theorem Frame.mem_bind {name : Text} {v : Value} {bs : List (Text × Value)} {b : Text × Value}
    (h : b ∈ Frame.bind name v bs) : b ∈ bs ∨ b.2 = v := by
  induction bs with
  | nil => simp_all [Frame.bind]
  | cons c bs ih =>
    unfold Frame.bind at h
    split at h
    · rcases List.mem_cons.mp h with rfl | h
      · exact .inr rfl
      · exact .inl (List.mem_cons_of_mem _ h)
    · rcases List.mem_cons.mp h with rfl | h
      · exact .inl List.mem_cons_self
      · exact (ih h).imp_left (List.mem_cons_of_mem _)

namespace Store.Binds

variable {P : Value → Prop} {st : Store}

theorem set (h : st.Binds P) {v : Value} (hv : P v) (i : FrameId) (name : Text) :
    (st.set i name v).Binds P := by
  intro j f hf b hb
  rw [frame?_set] at hf
  split at hf
  · obtain ⟨g, hg, rfl⟩ := Option.map_eq_some_iff.mp hf
    rcases Frame.mem_bind hb with hb | hb
    · exact h j g hg b hb
    · exact hb ▸ hv
  · exact h j f hf b hb

theorem alloc (h : st.Binds P) {f : Frame} (hf : ∀ b ∈ f.bindings, P b.2) :
    (st.alloc f).2.Binds P := by
  intro j g hg b hb
  rw [frame?_alloc] at hg
  split at hg
  · cases hg
    exact hf b hb
  · exact h j g hg b hb

theorem foldl_set {bindings : List (Text × Value)} (h : st.Binds P)
    (hbindings : ∀ b ∈ bindings, P b.2) (i : FrameId) :
    (bindings.foldl (fun st (n, v) => st.set i n v) st).Binds P := by
  induction bindings generalizing st with
  | nil => exact h
  | cons b bindings ih =>
    obtain ⟨hb, hmore⟩ := List.forall_mem_cons.mp hbindings
    exact ih (h.set hb i b.1) hmore

theorem local? (h : st.Binds P) {i : FrameId} {name : Text} {v : Value}
    (hv : st.local? i name = some v) : P v := by
  obtain ⟨f, hf, hget⟩ := Option.bind_eq_some_iff.mp hv
  obtain ⟨before, after, hbindings, -⟩ := List.lookup_eq_some_iff.mp hget
  exact h i f hf (name, v) (by simp [hbindings])

theorem get? (h : st.Binds P) {i : FrameId} {name : Text} {v : Value}
    (hv : st.get? i name = some v) : P v := by
  obtain ⟨j, -, hj⟩ := List.exists_of_findSome?_eq_some hv
  exact h.local? hj

end Store.Binds

/-! ## 2. Evaluation -/

section Evaluation

variable {P : Value → Prop}

/-- The values that are bound in the session satisfy the condition. -/
def Session.Binds (P : Value → Prop) (s : Session) : Prop := s.store.Binds P

theorem stable_binds : Session.Stable P (Session.Binds P) where
  report _ hstore hs := by
    unfold Session.Binds at hs ⊢
    rwa [hstore]
  bindName env name _ hv hs := Store.Binds.set hs hv env name
  pushFrame {s} home name _ hbindings hs := by
    have hnew : (s.store.push home name).2.Binds P :=
      Store.Binds.alloc hs (List.forall_mem_nil _)
    exact hnew.foldl_set hbindings _

variable (hP : Value.Closed P) {check : EvalM Unit}
  (hcheck : ∀ s, Session.Binds P s → check s = .ok () s)

include hP hcheck

theorem keeps_evalForm {ev ev' : Evaluator} (hev : ev.AgreeOn P (Session.Binds P) ev')
    (env : FrameId) {form : Value} (h : P form) :
    EvalM.AgreeOn P (Session.Binds P) ([·]) ((Wrapping.checking check).evalForm ev env form)
      (ev'.evalForm env form) := by
  refine agree_evalForm stable_binds hP (fun s _ _ hs hv => Store.Binds.get? hs hv) hev.eval ?_ h
  intro head args loc hhead hargs
  have hcall (f : Value) (hf : ∀ v ∈ [f], P v) := agree_applyForms stable_binds hP hcheck hev env
    loc (List.forall_mem_singleton.mp hf) hargs
  exact .nested (fun _ hs => hs) (fun _ ht => ht) ((EvalM.AgreeOn.checkDepth loc).bind fun _ _ =>
    (hev.eval env (.form hhead)).bind fun f hf => (hcall f hf).located loc)

/-- **Evaluation leads out of no condition that is closed under it**, and a check that does nothing
    as long as every bound value satisfies the condition does nothing. -/
theorem keeps_checking (n : Nat) :
    (checking check n).AgreeOn P (Session.Binds P) (ofFuel n) := by
  induction n with
  | zero => exact ⟨fun _ _ _ => .throw _, fun _ _ _ _ _ => .throw _⟩
  | succ n ih =>
    refine ⟨fun env form h => ?_, fun env f vals hf hvals =>
      agree_applyValues stable_binds hP hcheck ih env hf hvals⟩
    cases h with
    | form h => exact keeps_evalForm hP hcheck ih env h
    | marked h => exact .give h

end Evaluation

end SmallLisp
