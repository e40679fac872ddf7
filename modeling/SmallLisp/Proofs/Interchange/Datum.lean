import SmallLisp.Prelude.Encoding

/-!
# Values that can be interchanged

Not every value has an interchange form, and a form does not say everything about a value: quotes
are not written, and neither are places.

* `Value.Data`: values made of unit, numbers, strings, truth values, atoms, lists and quotes;
* `Value.content`: what is left of a value, quotes replaced by what they quote and places cleared;
* `Datum.Plain`: the data that such values are turned into;
* `ofValue_data`: a value of this kind has a form, and the form has the content as its value;
* `ofValue_cases`: a value has no form exactly if code is reached in it.
-/

namespace SmallLisp

/-! ## 1. Data -/

/-- Values made of unit, numbers, strings, truth values, atoms, lists and quotes. `N`, `S` and `L`
    say which numbers, which texts and which lengths of lists may occur, and `n` how deep the value
    is nested at most. An atom counts for one level, and a quote for none. -/
inductive Value.Data (N : Float → Prop) (S : Text → Prop) (L : Nat → Prop) :
    Nat → Value → Prop where
  | unit {n : Nat} : Data N S L n .unit
  | number {n : Nat} {x : Float} : N x → Data N S L n (.number x)
  | string {n : Nat} {s : Text} : S s → Data N S L n (.string s)
  | bool {n : Nat} (b : Bool) : Data N S L n (.bool b)
  | atom {n : Nat} {name : Text} (loc : Loc) : S name → Data N S L (n + 1) (.atom name loc)
  | list {n : Nat} {items : List Value} (loc : Loc) : L items.length →
      (∀ v ∈ items, Data N S L n v) → Data N S L (n + 1) (.list items loc)
  | quote {n : Nat} {v : Value} (applied : Bool) : Data N S L n v → Data N S L n (.quote v applied)

mutual

/-- The value with every quote replaced by what it quotes, and without places. -/
def Value.content : Value → Value
  | .quote v _ => v.content
  | .atom name _ => .atom name Loc.unknown
  | .list items _ => .list (contents items) Loc.unknown
  | v => v

/-- The contents of some values. -/
def Value.contents : List Value → List Value
  | [] => []
  | v :: vs => v.content :: contents vs

end

/-- Data that values are turned into, nested at most `n` deep. -/
inductive Datum.Plain (N : Float → Prop) (S : Text → Prop) (L : Nat → Prop) :
    Nat → Datum → Prop where
  | null {n : Nat} : Plain N S L n .null
  | float64 {n : Nat} {x : Float} : N x → Plain N S L n (.float64 x)
  | string {n : Nat} {s : Text} : S s → Plain N S L n (.string s)
  | bool {n : Nat} (b : Bool) : Plain N S L n (.bool b)
  | atom {n : Nat} {name : Text} : S name →
      Plain N S L (n + 1) (.map [(atomKey, .string name)])
  | array {n : Nat} {items : List Datum} : L items.length →
      (∀ d ∈ items, Plain N S L n d) → Plain N S L (n + 1) (.array items)

namespace Datum

variable {N : Float → Prop} {S : Text → Prop} {L : Nat → Prop}

theorem ofValues_of_forall {P : Datum → Prop} : ∀ {vs : List Value},
    (∀ v ∈ vs, ∃ d, ofValue v = .ok d ∧ P d ∧ d.toValue = .ok v.content) →
    ∃ ds, ofValues vs = .ok ds ∧ ds.length = vs.length ∧ (∀ d ∈ ds, P d) ∧
      toValues ds = .ok (Value.contents vs)
  | [], _ => ⟨[], rfl, rfl, fun _ hd => (by cases hd), rfl⟩
  | v :: vs, h => by
    obtain ⟨d, hd, hP, hvalue⟩ := h v List.mem_cons_self
    obtain ⟨ds, hds, hlength, hPs, hvalues⟩ :=
      ofValues_of_forall fun w hw => h w (List.mem_cons_of_mem v hw)
    refine ⟨d :: ds, ?_, ?_, ?_, ?_⟩
    · simp only [ofValues, hd, hds]
    · rw [List.length_cons, List.length_cons, hlength]
    · intro d' hd'
      rcases List.mem_cons.mp hd' with rfl | hd'
      · exact hP
      · exact hPs d' hd'
    · simp only [toValues, hvalue, hvalues, Value.contents]

/-- **A value of this kind has an interchange form, which stands for its content.** -/
theorem ofValue_data {n : Nat} {v : Value} (h : v.Data N S L n) :
    ∃ d, ofValue v = .ok d ∧ d.Plain N S L n ∧ d.toValue = .ok v.content := by
  induction h with
  | unit => exact ⟨.null, rfl, .null, rfl⟩
  | @number _ x hx => exact ⟨.float64 x, rfl, .float64 hx, rfl⟩
  | @string _ s hs => exact ⟨.string s, rfl, .string hs, rfl⟩
  | bool b => exact ⟨.bool b, rfl, .bool b, rfl⟩
  | @atom _ name loc hname => exact ⟨.map [(atomKey, .string name)], rfl, .atom hname, rfl⟩
  | @list n items loc hlength _ ih =>
    obtain ⟨ds, hds, hsame, hplain, hvalues⟩ := ofValues_of_forall ih
    refine ⟨.array ds, ?_, .array (hsame ▸ hlength) hplain, ?_⟩
    · simp only [ofValue, hds]
    · simp only [toValue, hvalues, Value.content]
  | quote applied _ ih => exact ih

end Datum

/-! ## 2. Code -/

/-- The value is code: a function, or forms to be evaluated in order. -/
def Value.isCode : Value → Bool
  | .native _ | .closure _ _ _ _ | .sequence _ => true
  | _ => false

/-- The second value is the first, or is reached in it through lists and quotes. -/
inductive Value.Reaches : Value → Value → Prop where
  | refl (v : Value) : Reaches v v
  | list {items : List Value} {loc : Loc} {v w : Value} : v ∈ items → Reaches v w →
      Reaches (.list items loc) w
  | quote {v w : Value} {applied : Bool} : Reaches v w → Reaches (.quote v applied) w

/-- The value has an interchange form, and no code is reached in it; or it has none, since code
    is. -/
inductive Value.Serializes (v : Value) : Except EvalError Datum → Prop where
  | ok (d : Datum) : (∀ w, v.Reaches w → w.isCode = false) → Serializes v (.ok d)
  | error (loc : Loc) (what : Text) {w : Value} : v.Reaches w → w.isCode = true →
      Serializes v (.error ⟨loc, .notSerializable what⟩)

namespace Datum

open Value

/-- A value with nothing inside. -/
theorem serializes_leaf {v : Value} (d : Datum) (hcode : v.isCode = false)
    (h : ∀ w, v.Reaches w → w = v) : v.Serializes (.ok d) :=
  .ok d fun w hw => by rw [h w hw, hcode]

mutual

/-- **A value has no interchange form exactly if code is reached in it.** -/
theorem ofValue_cases : ∀ v : Value, v.Serializes (ofValue v)
  | .unit => serializes_leaf _ rfl fun _ hw => by cases hw; rfl
  | .number _ => serializes_leaf _ rfl fun _ hw => by cases hw; rfl
  | .string _ => serializes_leaf _ rfl fun _ hw => by cases hw; rfl
  | .bool _ => serializes_leaf _ rfl fun _ hw => by cases hw; rfl
  | .atom _ _ => serializes_leaf _ rfl fun _ hw => by cases hw; rfl
  | .native f => .error _ _ (.refl (.native f)) rfl
  | .closure name params body env => .error _ _ (.refl (.closure name params body env)) rfl
  | .sequence body => .error _ _ (.refl (.sequence body)) rfl
  | .quote v applied => by
    have hinner := ofValue_cases v
    show Serializes (.quote v applied) (ofValue v)
    generalize ofValue v = r at hinner ⊢
    cases hinner with
    | ok d hd =>
      refine .ok d fun w hw => ?_
      cases hw with
      | refl => rfl
      | quote hw => exact hd w hw
    | error loc what hw hcode => exact .error loc what (.quote hw) hcode
  | .list items loc => by
    rcases ofValues_cases items with ⟨ds, hds, hcode⟩ | ⟨l, what, v, w, hds, hv, hw, hcode⟩
    · simp only [ofValue, hds]
      refine .ok _ fun w hw => ?_
      cases hw with
      | refl => rfl
      | list hv hw => exact hcode _ hv w hw
    · simp only [ofValue, hds]
      exact .error l what (.list hv hw) hcode

theorem ofValues_cases : ∀ vs : List Value,
    (∃ ds, ofValues vs = .ok ds ∧ ∀ v ∈ vs, ∀ w, v.Reaches w → w.isCode = false) ∨
    (∃ loc what v w, ofValues vs = .error ⟨loc, .notSerializable what⟩ ∧ v ∈ vs ∧ v.Reaches w ∧
      w.isCode = true)
  | [] => .inl ⟨[], rfl, fun _ hv => (by cases hv)⟩
  | v :: vs => by
    have hfirst := ofValue_cases v
    generalize hr : ofValue v = r at hfirst
    cases hfirst with
    | error loc what hw hcode =>
      exact .inr ⟨loc, what, v, _, by simp only [ofValues, hr], List.mem_cons_self, hw, hcode⟩
    | ok d hd =>
      rcases ofValues_cases vs with ⟨ds, hds, hcode⟩ | ⟨loc, what, u, w, hds, hu, hw, hcode⟩
      · refine .inl ⟨d :: ds, by simp only [ofValues, hr, hds], fun u hu => ?_⟩
        rcases List.mem_cons.mp hu with rfl | hu
        · exact hd
        · exact hcode u hu
      · exact .inr ⟨loc, what, u, w, by simp only [ofValues, hr, hds],
          List.mem_cons_of_mem v hu, hw, hcode⟩

end

end Datum

end SmallLisp
