import SmallLisp.Proofs.Node.Descent

/-!
# The first fault of a text

Whether a text can be read, and if not why, is decided by its brackets and quotes alone. A machine
that goes through the tokens once and knows nothing of trees finds the fault that reading reports
(`parse_reports_first_fault`): `Delimiters` are the brackets that are open and whether a quote waits
for what it quotes, `Delimiters.fault?` is what can be wrong at a token, and `Cursor.firstFault`
stops at the first thing that is.

Reading is scanning the tokens (`parseChars_eq_readFrom`), which builds trees on the way. A step of
the scan does to the brackets and quotes what the machine does (`Scan.delimiters_step`), and fails
where the machine finds a fault (`Scan.step_eq_error_iff`). Reading one expression after the other
comes to the same end (`outcome_ofText`).
-/

namespace SmallLisp

/-! ## 1. Brackets and quotes -/

/-- The brackets that are open, the innermost first, with their places; and whether a quote waits
    for what it quotes. -/
structure Delimiters where
  opened : List (Bracket × Loc)
  quoting : Bool
deriving DecidableEq

namespace Delimiters

/-- Nothing is open and nothing waits. -/
def none : Delimiters := ⟨[], false⟩

/-- What is wrong with a token: only a closing bracket can be out of place. -/
def fault? (d : Delimiters) (t : Token) : Option StructureError :=
  match t.kind with
  | .closer b =>
    if d.quoting then some ⟨t.loc, .nothingToQuote b⟩
    else
      match d.opened with
      | [] => some ⟨t.loc, .noOpener b⟩
      | (b', loc) :: _ => if b' = b then .none else some ⟨t.loc, .mismatched b' loc b⟩
  | _ => .none

/-- After a token with which nothing is wrong. -/
def after (d : Delimiters) (t : Token) : Delimiters :=
  match t.kind with
  | .quote => { d with quoting := true }
  | .opener b => ⟨(b, t.loc) :: d.opened, false⟩
  | .closer _ => ⟨d.opened.tail, false⟩
  | _ => { d with quoting := false }

/-- What is wrong if the text ends at this place. -/
def faultAtEnd? (d : Delimiters) (loc : Loc) : Option StructureError :=
  if d.quoting then some ⟨loc, .quoteAtEnd⟩
  else
    match d.opened with
    | [] => .none
    | (b, opened) :: _ => some ⟨opened, .neverClosed b⟩

end Delimiters

/-- The first fault of the text from a cursor on, which stands behind these delimiters. -/
def Cursor.firstFault (d : Delimiters) (cur : Cursor) : Option ReadError :=
  match h : cur.next with
  | (.error e, _) => some (.lexical e)
  | (.ok t, cur') =>
    if ht : t.kind = .eof then (d.faultAtEnd? t.loc).map .structural
    else
      match d.fault? t with
      | some e => some (.structural e)
      | none =>
        have := length_rest_next_lt h ht
        cur'.firstFault (d.after t)
termination_by cur.rest.length

namespace Cursor

variable {d : Delimiters} {cur cur' : Cursor} {t : Token}

theorem firstFault_of_error {e : LexError} (h : cur.next = (.error e, cur')) :
    cur.firstFault d = some (.lexical e) := by
  rw [firstFault]
  split
  · rename_i h'
    cases h.symm.trans h'
    rfl
  · rename_i h'
    cases h.symm.trans h'

theorem firstFault_of_eof (h : cur.next = (.ok t, cur')) (ht : t.kind = .eof) :
    cur.firstFault d = (d.faultAtEnd? t.loc).map .structural := by
  rw [firstFault]
  split
  · rename_i h'
    cases h.symm.trans h'
  · rename_i h'
    cases h.symm.trans h'
    rw [dif_pos ht]

theorem firstFault_of_token (h : cur.next = (.ok t, cur')) (ht : t.kind ≠ .eof) :
    cur.firstFault d =
      ((d.fault? t).map ReadError.structural).or (cur'.firstFault (d.after t)) := by
  rw [firstFault]
  split
  · rename_i h'
    cases h.symm.trans h'
  · rename_i h'
    cases h.symm.trans h'
    rw [dif_neg ht]
    cases d.fault? t <;> rfl

end Cursor

/-! ## 2. What a step does to the delimiters -/

namespace Scan

/-- The delimiters of a scan. -/
def delimiters (s : Scan) : Delimiters :=
  ⟨s.stack.map fun o => (o.bracket, o.loc), ! s.quotes.isEmpty⟩

theorem delimiters_add (s : Scan) (n : Node) :
    (s.add n).delimiters = { s.delimiters with quoting := false } := by
  rcases s with ⟨done, _ | ⟨top, below⟩, quotes⟩ <;> rfl

/-- **A step fails exactly where the delimiters are at fault.** -/
theorem step_eq_error_iff {s : Scan} {t : Token} {e : StructureError} :
    s.step t = .error e ↔ s.delimiters.fault? t = some e := by
  rcases t with ⟨kind, loc⟩
  cases kind with
  | closer b =>
    rcases s with ⟨done, _ | ⟨top, below⟩, _ | ⟨q, quotes⟩⟩
    · simp [step, close, delimiters, Delimiters.fault?]
    · simp [step, close, delimiters, Delimiters.fault?]
    · by_cases hb : top.bracket = b <;> simp [step, close, delimiters, Delimiters.fault?, hb]
    · simp [step, close, delimiters, Delimiters.fault?]
  | _ => simp [step, leaf?, Delimiters.fault?]

theorem delimiters_step {s s' : Scan} {t : Token} (ht : t.kind ≠ .eof) (h : s.step t = .ok s') :
    s'.delimiters = s.delimiters.after t := by
  rcases t with ⟨kind, loc⟩
  cases kind with
  | eof => exact absurd rfl ht
  | quote => cases h; rfl
  | opener b => cases h; rfl
  | closer b =>
    rcases s with ⟨done, _ | ⟨top, below⟩, _ | ⟨q, quotes⟩⟩
    · simp [step, close] at h
    · simp [step, close] at h
    · by_cases hb : top.bracket = b
      · simp only [step, close, hb, List.isEmpty_nil, Bool.not_true, Bool.false_eq_true, if_false,
          if_true, Except.ok.injEq] at h
        rw [← h, delimiters_add]
        rfl
      · simp [step, close, hb] at h
    · simp [step, close] at h
  | _ =>
    cases h
    exact delimiters_add s _

theorem finish_eq_error_iff {s : Scan} {loc : Loc} {e : StructureError} :
    s.finish loc = .error e ↔ s.delimiters.faultAtEnd? loc = some e := by
  rcases s with ⟨done, _ | ⟨top, below⟩, _ | ⟨q, quotes⟩⟩ <;>
    simp [finish, delimiters, Delimiters.faultAtEnd?]

end Scan

/-- The fault that reading ends with, if it does not succeed. -/
def faultOf? {α : Type} : Except ReadError α → Option ReadError
  | .ok _ => none
  | .error e => some e

/-- **Reading finds the first fault of the delimiters.** The induction is on the text that is left;
    what carries it is that scan and machine have the same delimiters. -/
theorem faultOf?_readFrom (s : Scan) (cur : Cursor) :
    faultOf? (s.readFrom cur) = cur.firstFault s.delimiters := by
  generalize hd : s.delimiters = d
  fun_induction Cursor.firstFault d cur generalizing s with
  | case1 d cur e cur' hnext => rw [Scan.readFrom_of_error hnext]; rfl
  | case2 d cur t cur' hnext ht =>
    rw [Scan.readFrom_of_eof hnext ht, ← hd]
    cases hfinish : s.finish t.loc with
    | ok ns =>
      cases hfault : s.delimiters.faultAtEnd? t.loc with
      | none => rfl
      | some e => rw [Scan.finish_eq_error_iff.mpr hfault] at hfinish; cases hfinish
    | error e =>
      rw [Scan.finish_eq_error_iff.mp hfinish]
      rfl
  | case3 d cur t cur' hnext ht e hfault =>
    subst hd
    rw [Scan.readFrom_of_token hnext ht, Scan.step_eq_error_iff.mpr hfault]
    rfl
  | case4 d cur t cur' hnext ht hfault _ ih =>
    subst hd
    rw [Scan.readFrom_of_token hnext ht]
    cases hstep : s.step t with
    | ok s' => exact ih s' (Scan.delimiters_step ht hstep)
    | error e =>
      rw [Scan.step_eq_error_iff.mp hstep] at hfault
      cases hfault

theorem faultOf?_parseChars (cs : List Char) :
    faultOf? (parseChars cs) = (Cursor.ofChars cs).firstFault .none := by
  rw [parseChars_eq_readFrom]
  exact faultOf?_readFrom Scan.empty _

theorem faultOf?_parse (src : Text) :
    faultOf? (parse src) = (Cursor.ofChars (Utf8.decode src)).firstFault .none := by
  rw [← faultOf?_parseChars, parse]
  cases parseChars (Utf8.decode src) <;> rfl

/-! ## 3. One expression after the other -/

namespace Reader

/-- What a program comes to whose expressions are read by these calls, if they come to its end. -/
def outcome : List (Except ReadError Item × Reader) → Option (Except ReadError (List Node))
  | [] => none
  | (.ok (.expr n), _) :: more => (outcome more).map (Except.map (n :: ·))
  | (.ok (.closer b loc), _) :: _ => some (.error (.structural ⟨loc, .noOpener b⟩))
  | (.ok (.eof _), _) :: _ => some (.ok [])
  | (.error e, _) :: _ => some (.error e)

/-- **Reading one expression after the other comes to what reading at once comes to**, whatever has
    been read before. -/
theorem outcome_steps {r : Reader} {k : Nat} (hk : r.left < k) :
    ∃ x, outcome (steps k r) = some x ∧
      ∀ done, r.programFrom done = x.map (done.reverse ++ ·) := by
  induction k generalizing r with
  | zero => exact absurd hk (Nat.not_lt_zero _)
  | succ k ih =>
    have hprogram (done : List Node) := programFrom_eq done r
    rw [steps]
    rcases hcall : r.next with ⟨e | item, r'⟩
    · rw [hcall] at hprogram
      exact ⟨.error e, rfl, hprogram⟩
    rw [hcall] at hprogram
    cases item with
    | closer b loc => exact ⟨_, rfl, hprogram⟩
    | eof loc =>
      refine ⟨.ok [], rfl, fun done => (hprogram done).trans ?_⟩
      rw [Except.map, List.append_nil]
    | expr n =>
      have hless := left_lt_of_next hcall
      obtain ⟨x, hx, hmore⟩ := ih (r := r') (by omega)
      refine ⟨x.map (n :: ·), ?_, fun done => ?_⟩
      · show (outcome (steps k r')).map (Except.map (n :: ·)) = _
        rw [hx]
        rfl
      · refine ((hprogram done).trans (hmore (n :: done))).trans ?_
        cases x with
        | error e => rfl
        | ok ns => simp [Except.map]

end Reader

theorem outcome_ofText (src : Text) : ∃ k, ∀ m, k ≤ m →
    Reader.outcome ((Reader.ofText src).steps m) = some (parseChars (Utf8.decode src)) := by
  refine ⟨(Reader.ofText src).left + 1, fun m hm => ?_⟩
  obtain ⟨x, hx, hprogram⟩ := Reader.outcome_steps hm
  have hparse : parseChars (Utf8.decode src) = x := by
    rw [show parseChars _ = _ from hprogram []]
    cases x <;> rfl
  rw [hx, hparse]

/-! ## 4. The result -/

/-- **Reading reports the first fault of a text**, and succeeds if there is none: a lexical error;
    a closing bracket while a quote waits, outside every list, or of another kind than the bracket
    that is open; the end while a quote waits or a bracket is open. So does reading one expression
    after the other, as soon as there are enough calls. -/
theorem parse_reports_first_fault (src : Text) :
    faultOf? (parse src) = (Cursor.ofChars (Utf8.decode src)).firstFault .none ∧
    ∃ k, ∀ m, k ≤ m → (Reader.outcome ((Reader.ofText src).steps m)).map faultOf? =
      some ((Cursor.ofChars (Utf8.decode src)).firstFault .none) := by
  obtain ⟨k, hk⟩ := outcome_ofText src
  refine ⟨faultOf?_parse src, k, fun m hm => ?_⟩
  rw [hk m hm, ← faultOf?_parseChars]
  rfl

/-- Lists of three kinds, the innermost of which ends with the bracket of the outermost; a character
    that starts no token comes later. -/
def tangledSource : Text := Text.ofString "(a ['b \x7bc) \x60"

/-- What is wrong with it. -/
def tangledFault : ReadError := .structural ⟨⟨1, 10⟩, .mismatched .curly ⟨1, 8⟩ .paren⟩

theorem parse_reports_first_fault_tangled :
    (Cursor.ofChars (Utf8.decode tangledSource)).firstFault .none = some tangledFault ∧
    faultOf? (parse tangledSource) = some tangledFault ∧
    ∃ m, (Reader.outcome ((Reader.ofText tangledSource).steps m)).map faultOf? =
      some (some tangledFault) := by
  have hfault : (Cursor.ofChars (Utf8.decode tangledSource)).firstFault .none =
      some tangledFault := by decide +kernel
  obtain ⟨hparse, k, hk⟩ := parse_reports_first_fault tangledSource
  refine ⟨hfault, hparse.trans hfault, k, ?_⟩
  rw [hk k (Nat.le_refl k), hfault]

end SmallLisp
