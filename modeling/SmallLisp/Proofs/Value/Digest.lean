import SmallLisp.Proofs.Eval.Calls
import SmallLisp.Proofs.Number.Binary64

/-!
# Digests of equal values

Two values are compared by what they hold, and a value is hashed by how it is printed. Values that
are equal are printed alike, and so have the same digest, with one exception: zero and minus zero
are equal as numbers and are printed differently, and their digests differ.

* `Value.key_of_equal`: equal values have the same key, but for the two zeros;
* `digest_of_equal`: hence the same digest, and in the language `(= (hash x) (hash y))` follows from
  `(= x y)`, again but for the two zeros.
-/

namespace SmallLisp

open EvalM Evaluator Float.Model

/-! ## 1. Equal values -/

namespace Binary64

/-- What compares as equal is the same, or both are zeros. -/
theorem eq_or_zeros_of_compare {u v : UnpackedFloat} (h : u.compare v = some .eq) :
    u = v ∨ ∃ s t, u = .zero s ∧ v = .zero t := by
  cases v with
  | finite s m e hm => exact .inl (eq_of_compare_finite h)
  | infinity s =>
    left
    cases u with
    | infinity s' => cases s <;> cases s' <;> simp [UnpackedFloat.compare] at h ⊢
    | finite s' m e hm => cases s <;> cases s' <;> simp [UnpackedFloat.compare] at h
    | zero s' => cases s <;> simp [UnpackedFloat.compare] at h
    | notANumber => cases s <;> simp [UnpackedFloat.compare] at h
  | zero t =>
    right
    cases u with
    | zero s => exact ⟨s, t, rfl, rfl⟩
    | finite s m e hm => cases s <;> simp [UnpackedFloat.compare] at h
    | infinity s => cases s <;> simp [UnpackedFloat.compare] at h
    | notANumber => simp [UnpackedFloat.compare] at h
  | notANumber => cases u <;> simp [UnpackedFloat.compare] at h

theorem eq_of_form_zero {x : Float} {s : UnpackedFloat.Sign} (h : form x = .zero s) :
    x = 0.0 ∨ x = -0.0 := by
  cases s with
  | positive => exact .inl (form_injective h)
  | negative => exact .inr (form_injective h)

end Binary64

/-- The one value is zero and the other minus zero. -/
def Value.OppositeZeros (a b : Value) : Prop :=
  a = .number 0.0 ∧ b = .number (-0.0) ∨ a = .number (-0.0) ∧ b = .number 0.0

theorem eq_or_oppositeZeros_of_beq {x y : Float} (h : (x == y) = true) :
    x = y ∨ (Value.number x).OppositeZeros (.number y) := by
  obtain hform | ⟨s, t, hx, hy⟩ := Binary64.eq_or_zeros_of_compare (Binary64.compare_of_beq h)
  · exact .inl (Binary64.form_injective hform)
  · obtain rfl | rfl := Binary64.eq_of_form_zero hx <;>
      obtain rfl | rfl := Binary64.eq_of_form_zero hy
    · exact .inl rfl
    · exact .inr (.inl ⟨rfl, rfl⟩)
    · exact .inr (.inr ⟨rfl, rfl⟩)
    · exact .inl rfl

/-- **Equal values have the same key**, but for the two zeros: an atom is printed without its place,
    and all that can be equal otherwise holds nothing that is not printed. -/
theorem Value.key_of_equal {a b : Value} (h : a.equal b = true) :
    a.key = b.key ∨ a.OppositeZeros b := by
  cases a with
  | number x =>
    cases b with
    | number y => exact (eq_or_oppositeZeros_of_beq h).imp_left (congrArg fun x => (number x).key)
    | _ => cases h
  | string s =>
    cases b with
    | string t => exact .inl (congrArg (fun s => (string s).key) (eq_of_beq h))
    | _ => cases h
  | bool p =>
    cases b with
    | bool q => exact .inl (congrArg (fun p => (bool p).key) (eq_of_beq h))
    | _ => cases h
  | atom name l =>
    cases b with
    | atom name' l' =>
      obtain rfl : name = name' := eq_of_beq h
      exact .inl rfl
    | _ => cases h
  | _ => cases h

/-- Zero and minus zero are printed differently, and their hashes do not collide. -/
theorem digest_zeros_ne : (Value.number 0.0).digest ≠ (Value.number (-0.0)).digest := by
  decide +kernel

theorem digest_eq_iff {a b : Value} (h : a.equal b = true) :
    a.digest = b.digest ↔ ¬ a.OppositeZeros b := by
  constructor
  · rintro hdigest (⟨rfl, rfl⟩ | ⟨rfl, rfl⟩)
    · exact digest_zeros_ne hdigest
    · exact digest_zeros_ne hdigest.symm
  · intro hzeros
    have hkey := (Value.key_of_equal h).resolve_right hzeros
    unfold Value.digest
    rw [hkey]

/-! ## 2. Equality and hashes in the language -/

/-- The form stands for a value and does nothing: it is a literal, a quoted value, or an atom that
    is bound to the value. -/
inductive Store.Gives (st : Store) (env : FrameId) : Value → Value → Prop where
  | number (x : Float) : Gives st env (.number x) (.number x)
  | string (t : Text) : Gives st env (.string t) (.string t)
  | bool (b : Bool) : Gives st env (.bool b) (.bool b)
  | quote (v : Value) (applied : Bool) : Gives st env (.quote v applied) v
  | atom {name : Text} {loc : Loc} {v : Value} : st.get? env name = some v →
      Gives st env (.atom name loc) v

/-- The form `(= x y)`. -/
def equation (x y : Value) (l loc : Loc) : Value := .list [.atom "=" l, x, y] loc

/-- The form `(hash x)`. -/
def hashOf (x : Value) (l loc : Loc) : Value := .list [.atom "hash" l, x] loc

theorem Store.Gives.eval {st : Store} {env : FrameId} {form v : Value} (h : st.Gives env form v)
    {s : Session} (hs : s.store = st) (n : Nat) :
    (ofFuel (n + 1)).eval env form s = .ok v s := by
  cases h with
  | atom hname => exact (Store.Denotes.atom hname).eval hs n
  | _ => rfl

/-- With this much fuel the form has the value inside the application that `s` is at, and binds
    nothing. -/
def Session.Yields (s : Session) (n : Nat) (env : FrameId) (form v : Value) : Prop :=
  ∀ s', s.Inside s' → ∃ t, (ofFuel (n + 1)).eval env form s' = .ok v t ∧ t.store = s'.store

theorem Store.Gives.yields {s : Session} {env : FrameId} {form v : Value}
    (h : s.store.Gives env form v) (n : Nat) : s.Yields n env form v :=
  fun s' hs => ⟨s', h.eval hs.store n, rfl⟩

/-- What an evaluation leaves is inside the same application, if it binds nothing. -/
theorem Session.Inside.after_eval {s s' t : Session} (h : s.Inside s') {n : Nat} {env : FrameId}
    {form v : Value} (heval : (ofFuel n).eval env form s' = .ok v t) (ht : t.store = s'.store) :
    s.Inside t := by
  have halike := progress_settings.eval n env form s'
  unfold EvalM.after at halike
  rw [heval] at halike
  exact ⟨ht.trans h.store, halike.limit.trans h.limit, halike.depth.trans h.depth⟩

section Calls

variable {s : Session} {env : FrameId} {n : Nat}

theorem eval_equation (hname : s.store.get? env "=" = some (.native (.primitive (.compare .eq))))
    (hroom : s.HasRoom) {x y a b : Value} (hx : s.Yields n env x a) (hy : s.Yields n env y b)
    (l loc : Loc) :
    ∃ t, (ofFuel (n + 2)).eval env (equation x y l loc) s = .ok (.bool (a.equal b)) t ∧
      t.store = s.store := by
  refine eval_native hname hroom (fun s' hs => ?_) l loc
  obtain ⟨t, ht, hstore⟩ := hx s' hs
  obtain ⟨u, hu, hstore'⟩ := hy t (hs.after_eval ht hstore)
  have hargs : (ofFuel (n + 1)).twoArgs env (Primitive.compare .eq).name [x, y] s' =
      .ok (a, b) u := by
    show ((ofFuel (n + 1)).eval env x >>= fun a => (ofFuel (n + 1)).eval env y >>= fun b =>
      (pure (a, b) : EvalM (Value × Value))) s' = _
    rw [bind_of_ok ht, bind_of_ok hu]
    rfl
  refine ⟨u, ?_, hstore'.trans hstore⟩
  show (ofFuel (n + 1)).comparison env .eq (Primitive.compare .eq).name [x, y] s' = _
  unfold comparison
  rw [bind_of_ok hargs]
  rfl

theorem eval_hashOf (hname : s.store.get? env "hash" = some (.native (.primitive .hash)))
    (hroom : s.HasRoom) {x a : Value} (hx : s.Yields n env x a) (l loc : Loc) :
    ∃ t, (ofFuel (n + 2)).eval env (hashOf x l loc) s = .ok (.string a.digest) t ∧
      t.store = s.store := by
  refine eval_native hname hroom (fun s' hs => ?_) l loc
  obtain ⟨t, ht, hstore⟩ := hx s' hs
  refine ⟨t, ?_, hstore⟩
  show ((ofFuel (n + 1)).eval env x >>= fun v => (pure (.string v.digest) : EvalM Value)) s' = _
  rw [bind_of_ok ht]
  rfl

end Calls

/-- Equality and hashes are those of the prelude, and two more applications may be nested. -/
structure Session.ComparesHashes (s : Session) (env : FrameId) : Prop where
  equal : s.store.get? env "=" = some (.native (.primitive (.compare .eq)))
  hash : s.store.get? env "hash" = some (.native (.primitive .hash))
  room : s.limit = 0 ∨ s.depth + 1 < s.limit

namespace Session.ComparesHashes

variable {s : Session} {env : FrameId} {x y a b : Value}

theorem hasRoom (h : s.ComparesHashes env) : s.HasRoom := h.room.imp_right Nat.lt_of_succ_lt

theorem yields_hashOf (h : s.ComparesHashes env) (hx : s.store.Gives env x a) (l loc : Loc) :
    s.Yields 1 env (hashOf x l loc) (.string a.digest) := by
  intro s' hs
  have hname : s'.store.get? env "hash" = some (.native (.primitive .hash)) := by
    rw [hs.store]
    exact h.hash
  have hroom : s'.HasRoom := by
    unfold HasRoom
    rw [hs.limit, hs.depth]
    exact h.room
  have hx' : s'.store.Gives env x a := by
    rw [hs.store]
    exact hx
  exact eval_hashOf hname hroom (hx'.yields 0) l loc

theorem answers_equation (h : s.ComparesHashes env) (hx : s.store.Gives env x a)
    (hy : s.store.Gives env y b) (l loc : Loc) :
    ∃ t, s.Answers env (equation x y l loc) (.ok (.bool (a.equal b)) t) := by
  obtain ⟨t, ht, -⟩ := eval_equation h.equal h.hasRoom (hx.yields 0) (hy.yields 0) l loc
  exact ⟨t, answers_of_fuel ht trivial⟩

theorem answers_equation_hashOf (h : s.ComparesHashes env) (hx : s.store.Gives env x a)
    (hy : s.store.Gives env y b) (l l₁ l₂ l₃ l₄ loc : Loc) :
    ∃ t, s.Answers env (equation (hashOf x l₁ l₂) (hashOf y l₃ l₄) l loc)
      (.ok (.bool (a.digest == b.digest)) t) := by
  obtain ⟨t, ht, -⟩ := eval_equation h.equal h.hasRoom (h.yields_hashOf hx l₁ l₂)
    (h.yields_hashOf hy l₃ l₄) l loc
  exact ⟨t, answers_of_fuel ht trivial⟩

end Session.ComparesHashes

/-- **Values that are equal hash alike, but for zero and minus zero.** The digests of equal values
    are the same if and only if the values are not the one zero and the other. So it is in the
    language: for forms that stand for the values, `(= x y)` says whether they are equal, and if it
    is true then `(= (hash x) (hash y))` is true too, and false for the two zeros. -/
theorem digest_of_equal (a b : Value) :
    (a.equal b = true → (a.digest = b.digest ↔ ¬ a.OppositeZeros b)) ∧
    ∀ (s : Session) (env : FrameId) (x y : Value), s.ComparesHashes env →
      s.store.Gives env x a → s.store.Gives env y b →
      (∀ l loc, ∃ t, s.Answers env (equation x y l loc) (.ok (.bool (a.equal b)) t)) ∧
      (a.equal b = true → ∀ l l₁ l₂ l₃ l₄ loc, ∃ same t,
        s.Answers env (equation (hashOf x l₁ l₂) (hashOf y l₃ l₄) l loc) (.ok (.bool same) t) ∧
        (same = true ↔ ¬ a.OppositeZeros b)) := by
  refine ⟨digest_eq_iff, fun s env x y hs hx hy => ⟨?_, ?_⟩⟩
  · exact fun l loc => hs.answers_equation hx hy l loc
  · intro hequal l l₁ l₂ l₃ l₄ loc
    obtain ⟨t, ht⟩ := hs.answers_equation_hashOf hx hy l l₁ l₂ l₃ l₄ loc
    exact ⟨_, t, ht, beq_iff_eq.trans (digest_eq_iff hequal)⟩

/-- A name that is bound to a text is compared with the text, and zero with minus zero. -/
theorem digest_of_equal_fresh :
    (Value.atom "x" ⟨1, 1⟩).digest = (Value.atom "x" ⟨2, 7⟩).digest ∧
    (∃ t, (Session.fresh "v1").Answers 0
      (equation (hashOf (.atom "*version*" ⟨1, 10⟩) ⟨1, 5⟩ ⟨1, 4⟩)
        (hashOf (.string "v1") ⟨1, 27⟩ ⟨1, 26⟩) ⟨1, 2⟩ ⟨1, 1⟩) (.ok (.bool true) t)) ∧
    ∃ t, (Session.fresh "v1").Answers 0
      (equation (hashOf (.number 0.0) ⟨1, 5⟩ ⟨1, 4⟩) (hashOf (.number (-0.0)) ⟨1, 14⟩ ⟨1, 13⟩)
        ⟨1, 2⟩ ⟨1, 1⟩) (.ok (.bool false) t) := by
  have hs : (Session.fresh "v1").ComparesHashes 0 := ⟨rfl, rfl, .inr (by decide)⟩
  have hname : (Session.fresh "v1").store.Gives 0 (.atom "*version*" ⟨1, 10⟩) (.string "v1") :=
    .atom rfl
  refine ⟨((digest_of_equal _ _).1 (by decide)).mpr ?_, ?_, ?_⟩
  · rintro (⟨h, -⟩ | ⟨h, -⟩) <;> cases h
  · obtain ⟨same, t, ht, hsame⟩ := ((digest_of_equal _ _).2 _ _ _ _ hs hname
      (.string "v1")).2 (by decide) ⟨1, 2⟩ ⟨1, 5⟩ ⟨1, 4⟩ ⟨1, 27⟩ ⟨1, 26⟩ ⟨1, 1⟩
    obtain rfl : same = true := hsame.mpr (by rintro (⟨h, -⟩ | ⟨h, -⟩) <;> cases h)
    exact ⟨t, ht⟩
  · obtain ⟨same, t, ht, hsame⟩ := ((digest_of_equal _ _).2 _ _ _ _ hs (.number 0.0)
      (.number (-0.0))).2 (by decide +kernel) ⟨1, 2⟩ ⟨1, 5⟩ ⟨1, 4⟩ ⟨1, 14⟩ ⟨1, 13⟩ ⟨1, 1⟩
    obtain rfl : same = false := Bool.eq_false_iff.mpr fun h => hsame.mp h (.inl ⟨rfl, rfl⟩)
    exact ⟨t, ht⟩

/-- Zero and minus zero are equal, and their digests are not. -/
theorem equal_zeros_digest :
    (Value.number 0.0).equal (.number (-0.0)) = true ∧
      (Value.number 0.0).digest ≠ (Value.number (-0.0)).digest :=
  ⟨by decide +kernel, digest_zeros_ne⟩

end SmallLisp
