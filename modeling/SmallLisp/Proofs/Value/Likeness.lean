import Mathlib.Data.List.Forall2
import SmallLisp.Prelude.Encoding

/-!
# Values that are alike

Two values are alike if they are built alike, and differ at most in the places where they were read
and in the frames that their closures were made in (`Value.Like`). Which places and frames may
stand for each other is a parameter.

No function on values looks at a place or a frame. Values that are alike are shown alike, compared
alike, hashed alike, and taken apart alike: where such a function gives a text, a number or a datum
it gives the same one, where it gives values they are alike, and where it fails it fails for the
same cause (`Outcome.Like`).
-/

namespace SmallLisp

/-! ## 1. The relation -/

/-- The values differ at most in places and frames: `L` says which places correspond, and `F` which
    frames. -/
inductive Value.Like (L : Loc → Loc → Prop) (F : FrameId → FrameId → Prop) :
    Value → Value → Prop where
  | unit : Like L F .unit .unit
  | number (x : Float) : Like L F (.number x) (.number x)
  | string (s : Text) : Like L F (.string s) (.string s)
  | bool (b : Bool) : Like L F (.bool b) (.bool b)
  | atom (name : Text) {l l' : Loc} : L l l' → Like L F (.atom name l) (.atom name l')
  | list {items items' : List Value} {l l' : Loc} :
      List.Forall₂ (Like L F) items items' → L l l' → Like L F (.list items l) (.list items' l')
  | sequence {body body' : List Value} :
      List.Forall₂ (Like L F) body body' → Like L F (.sequence body) (.sequence body')
  | native (f : Native) : Like L F (.native f) (.native f)
  | closure (name : Text) (params : Option (List Text)) {body body' : List Value}
      {env env' : FrameId} : List.Forall₂ (Like L F) body body' → F env env' →
      Like L F (.closure name params body env) (.closure name params body' env')
  | quote {v v' : Value} (applied : Bool) :
      Like L F v v' → Like L F (.quote v applied) (.quote v' applied)

/-- The values of two lists are alike one by one. -/
abbrev Value.AllLike (L : Loc → Loc → Prop) (F : FrameId → FrameId → Prop) :
    List Value → List Value → Prop := List.Forall₂ (Value.Like L F)

namespace Value

variable {L : Loc → Loc → Prop} {F F' : FrameId → FrameId → Prop}

mutual

theorem Like.mono (hF : ∀ i j, F i j → F' i j) : ∀ {v v' : Value}, Like L F v v' → Like L F' v v'
  | .unit, _, .unit => .unit
  | .number x, _, .number _ => .number x
  | .string s, _, .string _ => .string s
  | .bool b, _, .bool _ => .bool b
  | .atom name _, _, .atom _ hl => .atom name hl
  | .list _ _, _, .list hitems hl => .list (AllLike.mono hF hitems) hl
  | .sequence _, _, .sequence hbody => .sequence (AllLike.mono hF hbody)
  | .native f, _, .native _ => .native f
  | .closure name params _ _, _, .closure _ _ hbody henv =>
    .closure name params (AllLike.mono hF hbody) (hF _ _ henv)
  | .quote _ applied, _, .quote _ hv => .quote applied (Like.mono hF hv)

theorem AllLike.mono (hF : ∀ i j, F i j → F' i j) :
    ∀ {vs vs' : List Value}, AllLike L F vs vs' → AllLike L F' vs vs'
  | [], _, .nil => .nil
  | _ :: _, _, .cons hv hvs => .cons (Like.mono hF hv) (AllLike.mono hF hvs)

end

mutual

/-- Every value is like itself, if every place and every frame corresponds to itself. -/
theorem Like.refl (hL : ∀ l, L l l) (hF : ∀ i, F i i) : ∀ v : Value, Like L F v v
  | .unit => .unit
  | .number x => .number x
  | .string s => .string s
  | .bool b => .bool b
  | .atom name l => .atom name (hL l)
  | .list items l => .list (AllLike.refl hL hF items) (hL l)
  | .sequence body => .sequence (AllLike.refl hL hF body)
  | .native f => .native f
  | .closure name params body env => .closure name params (AllLike.refl hL hF body) (hF env)
  | .quote v applied => .quote applied (Like.refl hL hF v)

theorem AllLike.refl (hL : ∀ l, L l l) (hF : ∀ i, F i i) : ∀ vs : List Value, AllLike L F vs vs
  | [] => .nil
  | v :: vs => .cons (Like.refl hL hF v) (AllLike.refl hL hF vs)

end

mutual

/-- If places and frames correspond to themselves only, values that are alike are equal. -/
theorem Like.eq : ∀ {v v' : Value}, Like Eq Eq v v' → v = v'
  | .unit, _, .unit => rfl
  | .number _, _, .number _ => rfl
  | .string _, _, .string _ => rfl
  | .bool _, _, .bool _ => rfl
  | .atom _ _, _, .atom _ hl => by rw [hl]
  | .list _ _, _, .list hitems hl => by rw [AllLike.eq hitems, hl]
  | .sequence _, _, .sequence hbody => by rw [AllLike.eq hbody]
  | .native _, _, .native _ => rfl
  | .closure _ _ _ _, _, .closure _ _ hbody henv => by rw [AllLike.eq hbody, henv]
  | .quote _ _, _, .quote _ hv => by rw [Like.eq hv]

theorem AllLike.eq : ∀ {vs vs' : List Value}, AllLike Eq Eq vs vs' → vs = vs'
  | [], _, .nil => rfl
  | _ :: _, _, .cons hv hvs => by rw [Like.eq hv, AllLike.eq hvs]

end

mutual

/-- A value that is like itself is so along each of its frames and that frame itself. -/
theorem Like.self : ∀ {v : Value}, Like L F v v → Like Eq (fun i j => i = j ∧ F i j) v v
  | .unit, .unit => .unit
  | .number x, .number _ => .number x
  | .string s, .string _ => .string s
  | .bool b, .bool _ => .bool b
  | .atom name _, .atom _ _ => .atom name rfl
  | .list _ _, .list hitems _ => .list (AllLike.self hitems) rfl
  | .sequence _, .sequence hbody => .sequence (AllLike.self hbody)
  | .native f, .native _ => .native f
  | .closure name params _ _, .closure _ _ hbody henv =>
    .closure name params (AllLike.self hbody) ⟨rfl, henv⟩
  | .quote _ applied, .quote _ hv => .quote applied (Like.self hv)

theorem AllLike.self : ∀ {vs : List Value}, AllLike L F vs vs →
    AllLike Eq (fun i j => i = j ∧ F i j) vs vs
  | [], .nil => .nil
  | _ :: _, .cons hv hvs => .cons (Like.self hv) (AllLike.self hvs)

end

/-! ## 2. What is shown of values -/

mutual

theorem Like.sexp : ∀ {v v' : Value}, Like L F v v' → v.sexp = v'.sexp
  | .unit, _, .unit => rfl
  | .number _, _, .number _ => rfl
  | .string _, _, .string _ => rfl
  | .bool _, _, .bool _ => rfl
  | .atom _ _, _, .atom _ _ => rfl
  | .list _ _, _, .list hitems _ => by rw [Value.sexp, Value.sexp, AllLike.sexps hitems]
  | .sequence _, _, .sequence hbody => by rw [Value.sexp, Value.sexp, AllLike.sexps hbody]
  | .native _, _, .native _ => rfl
  | .closure _ _ _ _, _, .closure _ _ hbody _ => by
    rw [Value.sexp, Value.sexp, AllLike.sexps hbody]
  | .quote _ _, _, .quote _ hv => by rw [Value.sexp, Value.sexp, Like.sexp hv]

theorem AllLike.sexps : ∀ {vs vs' : List Value}, AllLike L F vs vs' → sexps vs = sexps vs'
  | [], _, .nil => rfl
  | _ :: _, _, .cons hv hvs => by
    rw [Value.sexps, Value.sexps, Like.sexp hv, AllLike.sexps hvs]

end

mutual

theorem Like.display : ∀ {v v' : Value}, Like L F v v' → v.display = v'.display
  | .unit, _, .unit => rfl
  | .number _, _, .number _ => rfl
  | .string _, _, .string _ => rfl
  | .bool _, _, .bool _ => rfl
  | .atom _ _, _, .atom _ _ => rfl
  | .list _ _, _, .list hitems _ => by
    rw [Value.display, Value.display, AllLike.displays hitems]
  | .sequence _, _, .sequence hbody => Like.sexp (.sequence hbody)
  | .native _, _, .native _ => rfl
  | .closure _ _ _ _, _, .closure name params hbody henv =>
    Like.sexp (.closure name params hbody henv)
  | .quote _ _, _, .quote _ hv => by rw [Value.display, Value.display, Like.display hv]

theorem AllLike.displays : ∀ {vs vs' : List Value}, AllLike L F vs vs' → displays vs = displays vs'
  | [], _, .nil => rfl
  | _ :: _, _, .cons hv hvs => by
    rw [Value.displays, Value.displays, Like.display hv, AllLike.displays hvs]

end

theorem AllLike.joined {vs vs' : List Value} (h : AllLike L F vs vs') : joined vs = joined vs' := by
  rw [Value.joined, Value.joined, h.sexps]

theorem Like.typeName {v v' : Value} (h : Like L F v v') : v.typeName = v'.typeName := by
  cases h <;> rfl

theorem Like.describe {v v' : Value} (h : Like L F v v') : v.describe = v'.describe := by
  rw [Value.describe, Value.describe, h.typeName, h.sexp]

theorem Like.digest {v v' : Value} (h : Like L F v v') : v.digest = v'.digest := by
  rw [Value.digest, Value.digest, Value.key, Value.key, h.typeName, h.sexp]

theorem Like.equal {a a' b b' : Value} (ha : Like L F a a') (hb : Like L F b b') :
    a.equal b = a'.equal b' := by
  cases ha <;> cases hb <;> rfl

theorem Like.isNative {v v' : Value} (h : Like L F v v') : v.isNative = v'.isNative := by
  cases h <;> rfl

theorem Like.loc (hL : L Loc.unknown Loc.unknown) :
    ∀ {v v' : Value}, Like L F v v' → L v.loc v'.loc
  | .unit, _, .unit => hL
  | .number _, _, .number _ => hL
  | .string _, _, .string _ => hL
  | .bool _, _, .bool _ => hL
  | .atom _ _, _, .atom _ hl => hl
  | .list _ _, _, .list _ hl => hl
  | .sequence _, _, .sequence _ => hL
  | .native _, _, .native _ => hL
  | .closure _ _ _ _, _, .closure _ _ _ _ => hL
  | .quote _ _, _, .quote _ hv => by
    have hloc := Like.loc hL hv
    exact hloc

section Dump

/-- Functions that are alike are shown alike, the one in this way and the other in that. -/
def ShownAlike (F : FrameId → FrameId → Prop) (shown shown' : Nat → Value → Text) : Prop :=
  ∀ (level : Nat) {v v' : Value}, Like Eq F v v' → shown level v = shown' level v'

variable {shown shown' : Nat → Value → Text}

theorem Like.isOneLine (hshown : ShownAlike F shown shown') {v v' : Value} (h : Like Eq F v v')
    (level : Nat) :
    v.isOneLine shown level = v'.isOneLine shown' level := by
  have hfunction := hshown level h
  cases h with
  | native f => exact congrArg (fun t => !List.contains t 0x0A) hfunction
  | closure name params hbody henv => exact congrArg (fun t => !List.contains t 0x0A) hfunction
  | _ => rfl

theorem dumpField_of_dumpAll {level : Nat} {vs vs' : List Value} (hlength : vs.length = vs'.length)
    (h : dumpAll shown (level + 1) vs = dumpAll shown' (level + 1) vs') (field : Text) :
    dumpField shown level field vs = dumpField shown' level field vs' := by
  rcases vs with _ | ⟨v, vs⟩ <;> rcases vs' with _ | ⟨v', vs'⟩
  · rw [Value.dumpField, Value.dumpField]
  · simp at hlength
  · simp at hlength
  · rw [Value.dumpField, Value.dumpField, h]

mutual

/-- Values that were read at the same places have the same dump, if functions are shown alike. -/
theorem Like.dumpAt (hshown : ShownAlike F shown shown') : ∀ {v v' : Value}, Like Eq F v v' →
    ∀ (level : Nat) (before after : Text),
      v.dumpAt shown level before after = v'.dumpAt shown' level before after
  | .unit, _, .unit, _, _, _ => by rw [Value.dumpAt, Value.dumpAt]
  | .number _, _, .number _, _, _, _ => by rw [Value.dumpAt, Value.dumpAt]
  | .string _, _, .string _, _, _, _ => by rw [Value.dumpAt, Value.dumpAt]
  | .bool _, _, .bool _, _, _, _ => by rw [Value.dumpAt, Value.dumpAt]
  | .atom _ _, _, .atom _ hl, _, _, _ => by rw [Value.dumpAt, Value.dumpAt, hl]
  | .list _ _, _, .list hitems hl, level, _, _ => by
    have hall := AllLike.dumpAll hshown hitems (level + 1 + 1)
    have hfield := dumpField_of_dumpAll hitems.length_eq hall "Items: "
    rw [Value.dumpAt, Value.dumpAt, hfield, hl]
  | .sequence _, _, .sequence hbody, level, _, _ => by
    have hall := AllLike.dumpAll hshown hbody (level + 1 + 1)
    have hfield := dumpField_of_dumpAll hbody.length_eq hall "Body: "
    rw [Value.dumpAt, Value.dumpAt, hfield]
  | .native _, _, .native f, level, _, _ => by
    rw [Value.dumpAt, Value.dumpAt, hshown level (.native f)]
  | .closure _ _ _ _, _, .closure name params hbody henv, level, _, _ => by
    rw [Value.dumpAt, Value.dumpAt, hshown level (.closure name params hbody henv)]
  | .quote _ _, _, .quote _ hv, level, _, _ => by
    rw [Value.dumpAt, Value.dumpAt, Like.dumpAt hshown hv, Like.isOneLine hshown hv]

theorem AllLike.dumpAll (hshown : ShownAlike F shown shown') : ∀ {vs vs' : List Value},
    AllLike Eq F vs vs' → ∀ level : Nat, dumpAll shown level vs = dumpAll shown' level vs'
  | [], _, .nil, _ => by rw [Value.dumpAll, Value.dumpAll]
  | _ :: _, _, .cons hv hvs, _ => by
    rw [Value.dumpAll, Value.dumpAll, Like.dumpAt hshown hv, AllLike.dumpAll hshown hvs]

end

theorem Like.dump {v v' : Value} (h : Like Eq F v v') (hshown : ShownAlike F shown shown') :
    v.dump shown = v'.dump shown' := by
  have hat := Like.dumpAt hshown h 0 [] []
  cases h with
  | closure name params hbody _ =>
    rw [Value.dump, Value.dump, Like.dumpAt hshown (.sequence hbody)]
  | _ => exact hat

end Dump

/-! ## 3. Parts of values -/

theorem Like.bare {v v' : Value} (h : Like L F v v') : Like L F (bare v) (bare v') := by
  have hlike := h
  cases h with
  | quote applied hv =>
    cases applied with
    | false => exact hlike
    | true => exact hv
  | _ => exact hlike

theorem AllLike.map {f : Value → Value} (hf : ∀ v v', Like L F v v' → Like L F (f v) (f v'))
    {vs vs' : List Value} (h : AllLike L F vs vs') : AllLike L F (vs.map f) (vs'.map f) := by
  induction h with
  | nil => exact .nil
  | cons hv _ ih => exact .cons (hf _ _ hv) ih

/-! ## 4. Values from outside -/

theorem like_quoteIf {i : NodeInfo} {v v' : Value} (h : Like L F v v') :
    Like L F (quoteIf i v) (quoteIf i v') := by
  unfold quoteIf
  split
  · exact .quote false h
  · exact h

mutual

/-- What was read from one text is alike, also if it was read at different places. -/
theorem like_ofNode (hL : ∀ l, L l l) : ∀ n : Node, Like L F (ofNode n) (ofNode n)
  | .unit _ => like_quoteIf .unit
  | .atom i name => like_quoteIf (.atom name (hL i.loc))
  | .string _ text => like_quoteIf (.string text)
  | .number _ x => like_quoteIf (.number x)
  | .bool _ b => like_quoteIf (.bool b)
  | .list i items => like_quoteIf (.list (allLike_ofNodes hL items) (hL i.loc))
  | .progn _ items => like_quoteIf (.sequence (allLike_ofNodes hL items))

theorem allLike_ofNodes (hL : ∀ l, L l l) : ∀ ns : List Node, AllLike L F (ofNodes ns) (ofNodes ns)
  | [] => .nil
  | n :: ns => .cons (like_ofNode hL n) (allLike_ofNodes hL ns)

end

theorem like_formOf (hL : ∀ l, L l l) (ns : List Node) :
    Like L F (Evaluator.formOf ns) (Evaluator.formOf ns) := by
  unfold Evaluator.formOf
  split
  · exact .unit
  · exact like_ofNode hL _
  · exact like_ofNode hL _

mutual

theorem like_toValue (hL : L Loc.unknown Loc.unknown) {d : Datum} {v : Value}
    (h : d.toValue = .ok v) : Like L F v v := by
  match d with
  | .null | .bool _ | .float64 _ | .float32 _ | .int64 _ | .int _ | .uint64 _ | .string _
  | .bytes _ =>
    cases h
    constructor
  | .array items =>
    rw [Datum.toValue] at h
    split at h
    · rename_i vs hvs
      cases h
      exact .list (allLike_toValues hL hvs) hL
    · cases h
  | .map entries =>
    unfold Datum.toValue at h
    split at h
    case h_11 key name hentries =>
      split at h
      · cases h
        exact .atom name hL
      · cases h
    case h_12 => cases h
    all_goals cases ‹Datum.map entries = _›
  | .int8 _ | .time | .extension => cases h

theorem allLike_toValues (hL : L Loc.unknown Loc.unknown) {ds : List Datum} {vs : List Value}
    (h : Datum.toValues ds = .ok vs) : AllLike L F vs vs := by
  match ds with
  | [] =>
    cases h
    exact .nil
  | d :: ds =>
    rw [Datum.toValues] at h
    split at h
    · cases h
    · rename_i v hv
      split at h
      · cases h
      · rename_i vs hvs
        cases h
        exact .cons (like_toValue hL hv) (allLike_toValues hL hvs)

end

theorem like_ofDatum? (hL : L Loc.unknown Loc.unknown) {d? : Option Datum} {v : Value}
    (h : ofDatum? d? = .ok v) : Like L F v v := by
  unfold ofDatum? at h
  split at h
  · cases h
  · split at h
    · rename_i hv
      cases h
      exact like_toValue hL hv
    · cases h

end Value

/-! ## 5. Errors and outcomes -/

/-- The errors have the same cause, and their places correspond. -/
structure EvalError.Like (L : Loc → Loc → Prop) (e e' : EvalError) : Prop where
  loc : L e.loc e'.loc
  cause : e.cause = e'.cause

/-- Evaluation errors that are alike, or one and the same fault of another kind. -/
inductive Fault.Like (L : Loc → Loc → Prop) : Fault → Fault → Prop where
  | read (e : ReadError) : Like L (.read e) (.read e)
  | eval {e e' : EvalError} : EvalError.Like L e e' → Like L (.eval e) (.eval e')
  | malformed : Like L .malformed .malformed

theorem Fault.Like.refl {L : Loc → Loc → Prop} (hL : ∀ l, L l l) : ∀ f : Fault, Fault.Like L f f
  | .read e => .read e
  | .eval e => .eval ⟨hL e.loc, rfl⟩
  | .malformed => .malformed

/-- Both succeed, and what they give corresponds, or both fail alike. -/
inductive Outcome.Like (L : Loc → Loc → Prop) {α : Type} (R : α → α → Prop) :
    Except EvalError α → Except EvalError α → Prop where
  | ok {a a' : α} : R a a' → Like L R (.ok a) (.ok a')
  | error {e e' : EvalError} : EvalError.Like L e e' → Like L R (.error e) (.error e')

section

variable {L : Loc → Loc → Prop} {F : FrameId → FrameId → Prop}

theorem like_mismatch (hL : L Loc.unknown Loc.unknown) (op : Text) (want : String) {v v' : Value}
    (h : Value.Like L F v v') :
    EvalError.Like L (.mismatch op want v) (.mismatch op want v') := by
  refine ⟨h.loc hL, ?_⟩
  show EvalCause.typeMismatch op want v.describe = .typeMismatch op want v'.describe
  rw [h.describe]

theorem like_paramNames (hL : L Loc.unknown Loc.unknown) (op : Text) {vs vs' : List Value}
    (h : Value.AllLike L F vs vs') : Outcome.Like L Eq (paramNames op vs) (paramNames op vs') := by
  induction h with
  | nil => exact .ok rfl
  | cons hv _ ih =>
    have hlike := hv
    cases hv with
    | atom name _ =>
      unfold paramNames
      generalize paramNames op _ = r at ih ⊢
      generalize paramNames op _ = r' at ih ⊢
      cases ih with
      | ok hnames => exact .ok (by rw [hnames])
      | error he => exact .error he
    | _ => exact .error (like_mismatch hL op _ hlike)

theorem like_params (hL : L Loc.unknown Loc.unknown) (op : Text) {v v' : Value}
    (h : Value.Like L F v v') : Outcome.Like L Eq (params op v) (params op v') := by
  have hlike := h
  cases h with
  | unit => exact .ok rfl
  | list hitems _ =>
    have hnames := like_paramNames hL op hitems
    simp only [params]
    generalize paramNames op _ = r at hnames ⊢
    generalize paramNames op _ = r' at hnames ⊢
    cases hnames with
    | ok hnames => exact .ok (by rw [hnames])
    | error he => exact .error he
  | _ => exact .error (like_mismatch hL op _ hlike)

theorem like_listItems (hL : L Loc.unknown Loc.unknown) (op : Text) {v v' : Value}
    (h : Value.Like L F v v') :
    Outcome.Like L (Value.AllLike L F) (listItems op v) (listItems op v') := by
  have hlike := h
  cases h with
  | unit => exact .ok .nil
  | list hitems _ => exact .ok hitems
  | _ => exact .error (like_mismatch hL op _ hlike)

theorem like_asNumber (hL : L Loc.unknown Loc.unknown) (op : Text) {v v' : Value}
    (h : Value.Like L F v v') :
    Outcome.Like L Eq (Evaluator.asNumber op v) (Evaluator.asNumber op v') := by
  have hlike := h
  cases h with
  | number x => exact .ok rfl
  | _ => exact .error (like_mismatch hL op _ hlike)

/-! ## 6. Interchange -/

theorem like_notSerializable (hL : L Loc.unknown Loc.unknown) {v v' : Value}
    (h : Value.Like L F v v') :
    EvalError.Like L ⟨v.loc, .notSerializable v.describe⟩ ⟨v'.loc, .notSerializable v'.describe⟩ :=
  ⟨h.loc hL, by rw [h.describe]⟩

mutual

theorem like_ofValue (hL : L Loc.unknown Loc.unknown) : ∀ {v v' : Value}, Value.Like L F v v' →
    Outcome.Like L Eq (Datum.ofValue v) (Datum.ofValue v')
  | .unit, _, .unit => .ok rfl
  | .number _, _, .number _ => .ok rfl
  | .string _, _, .string _ => .ok rfl
  | .bool _, _, .bool _ => .ok rfl
  | .atom _ _, _, .atom _ _ => .ok rfl
  | .list _ _, _, .list hitems _ => by
    have hdata := like_ofValues hL hitems
    rw [Datum.ofValue, Datum.ofValue]
    generalize Datum.ofValues _ = r at hdata ⊢
    generalize Datum.ofValues _ = r' at hdata ⊢
    cases hdata with
    | ok hds => exact .ok (by rw [hds])
    | error he => exact .error he
  | .sequence _, _, .sequence hbody => .error (like_notSerializable hL (.sequence hbody))
  | .native _, _, .native f => .error (like_notSerializable hL (.native (F := F) f))
  | .closure _ _ _ _, _, .closure name params hbody henv =>
    .error (like_notSerializable hL (.closure name params hbody henv))
  | .quote _ _, _, .quote _ hv => by
    have hcontent := like_ofValue hL hv
    rw [Datum.ofValue, Datum.ofValue]
    exact hcontent

theorem like_ofValues (hL : L Loc.unknown Loc.unknown) : ∀ {vs vs' : List Value},
    Value.AllLike L F vs vs' → Outcome.Like L Eq (Datum.ofValues vs) (Datum.ofValues vs')
  | [], _, .nil => .ok rfl
  | _ :: _, _, .cons hv hvs => by
    have hd := like_ofValue hL hv
    have hds := like_ofValues hL hvs
    rw [Datum.ofValues, Datum.ofValues]
    generalize Datum.ofValue _ = r at hd ⊢
    generalize Datum.ofValue _ = r' at hd ⊢
    cases hd with
    | error he => exact .error he
    | ok hd =>
      generalize Datum.ofValues _ = q at hds ⊢
      generalize Datum.ofValues _ = q' at hds ⊢
      cases hds with
      | error he => exact .error he
      | ok hds => exact .ok (by rw [hd, hds])

end

theorem like_toJson (hL : L Loc.unknown Loc.unknown) {v v' : Value} (h : Value.Like L F v v') :
    Outcome.Like L Eq v.toJson v'.toJson := by
  have hdatum := like_ofValue hL h
  unfold Value.toJson
  generalize Datum.ofValue v = r at hdatum ⊢
  generalize Datum.ofValue v' = r' at hdatum ⊢
  cases hdatum with
  | ok hd => exact .ok (by rw [hd])
  | error he => exact .error he

theorem like_toMessagePack (hL : L Loc.unknown Loc.unknown) {v v' : Value}
    (h : Value.Like L F v v') : Outcome.Like L Eq v.toMessagePack v'.toMessagePack := by
  have hdatum := like_ofValue hL h
  unfold Value.toMessagePack
  generalize Datum.ofValue v = r at hdatum ⊢
  generalize Datum.ofValue v' = r' at hdatum ⊢
  cases hdatum with
  | ok hd => exact .ok (by rw [hd])
  | error he => exact .error he

end

end SmallLisp
