import SmallLisp.Proofs.Eval.Calls
import SmallLisp.Proofs.Eval.Marks
import SmallLisp.Proofs.Repl.Loading

/-!
# Printed values read back

A value is printed in source form, whether it was read from a text or put together by a program.
For data the form can be read again, and gives the value back but for places:

* `Value.Legible`: the values this is said of;
* `Legible.exists_node`: such a value is printed like a tree that can be read, which has the value;
* `parse_of_readable`: that tree is what the printed text reads as.

The form of a function without a name is the call of `lambda` that makes it, so evaluating it where
the function was made gives such a function again (`printed_read_back`).
-/

namespace SmallLisp

open Evaluator

/-! ## 1. Legible values -/

/-- The text of an atom token of some source text. -/
def Text.IsAtom (t : Text) : Prop :=
  ∃ (cs : List Char) (name : String) (loc : Loc),
    ⟨.atom name, loc⟩ ∈ (tokenize cs).1 ∧ t = Text.ofString name

namespace Value

/-- The value is a quote. -/
def isQuote : Value → Bool
  | .quote _ _ => true
  | _ => false

/-- Values whose source form says all there is to say about them. In the source a quote before a
    quote is another name for a call of `quote`, so the content of a quote is none. -/
inductive Legible : Value → Prop where
  | number {x : Float} : x.isFinite = true → Legible (.number x)
  | bool (b : Bool) : Legible (.bool b)
  | string {s : Text} : Utf8.isValid s = true → 0x22 ∉ s → Legible (.string s)
  | atom {name : Text} (loc : Loc) : name.IsAtom → Legible (.atom name loc)
  | list {items : List Value} (loc : Loc) : (∀ v ∈ items, Legible v) → Legible (.list items loc)
  | quote {v : Value} (applied : Bool) : Legible v → v.isQuote = false → Legible (.quote v applied)

mutual

/-- The value without the marks of `apply`, which are not printed. -/
def withoutMarks : Value → Value
  | .list items loc => .list (withoutMarksAll items) loc
  | .sequence body => .sequence (withoutMarksAll body)
  | .closure name params body env => .closure name params (withoutMarksAll body) env
  | .quote v _ => .quote v.withoutMarks false
  | v => v

/-- The values without the marks of `apply`. -/
def withoutMarksAll : List Value → List Value
  | [] => []
  | v :: vs => v.withoutMarks :: withoutMarksAll vs

end

mutual

theorem withoutMarks_of_unmarked : ∀ {v : Value}, v.unmarked = true → v.withoutMarks = v
  | .unit, _ | .number _, _ | .string _, _ | .bool _, _ | .atom _ _, _ | .native _, _ => rfl
  | .list _ _, h => by rw [withoutMarks, withoutMarksAll_of_unmarked h]
  | .sequence _, h => by rw [withoutMarks, withoutMarksAll_of_unmarked h]
  | .closure _ _ _ _, h => by rw [withoutMarks, withoutMarksAll_of_unmarked h]
  | .quote _ applied, h => by
    obtain ⟨happlied, hv⟩ := Bool.and_eq_true_iff.mp h
    obtain rfl : applied = false := by simpa using happlied
    rw [withoutMarks, withoutMarks_of_unmarked hv]

theorem withoutMarksAll_of_unmarked :
    ∀ {vs : List Value}, unmarkedAll vs = true → withoutMarksAll vs = vs
  | [], _ => rfl
  | _ :: _, h => by
    obtain ⟨hv, hvs⟩ := Bool.and_eq_true_iff.mp h
    rw [withoutMarksAll, withoutMarks_of_unmarked hv, withoutMarksAll_of_unmarked hvs]

end

mutual

theorem Matches.trans (u : Value) {v w : Value} (h : u.Matches v) (h' : v.Matches w) :
    u.Matches w := by
  match u with
  | .unit | .number _ | .string _ | .bool _ | .native _ =>
    cases h
    exact h'
  | .atom name _ =>
    cases h
    cases h'
    exact .atom name trivial
  | .list items _ =>
    cases h with
    | list hitems _ =>
      cases h' with
      | list hitems' _ => exact .list (matchesAll_trans items hitems hitems') trivial
  | .sequence body =>
    cases h with
    | sequence hbody =>
      cases h' with
      | sequence hbody' => exact .sequence (matchesAll_trans body hbody hbody')
  | .closure name params body _ =>
    cases h with
    | closure _ _ hbody henv =>
      cases h' with
      | closure _ _ hbody' henv' =>
        exact .closure name params (matchesAll_trans body hbody hbody') (henv.trans henv')
  | .quote v applied =>
    cases h with
    | quote _ hv =>
      cases h' with
      | quote _ hv' => exact .quote applied (Matches.trans v hv hv')

theorem matchesAll_trans (us : List Value) {vs ws : List Value}
    (h : List.Forall₂ Value.Matches us vs) (h' : List.Forall₂ Value.Matches vs ws) :
    List.Forall₂ Value.Matches us ws := by
  match us with
  | [] =>
    cases h
    exact h'
  | u :: us =>
    cases h with
    | cons hu hus =>
      cases h' with
      | cons hv hvs => exact .cons (Matches.trans u hu hv) (matchesAll_trans us hus hvs)

end

end Value

/-! ## 2. Values as trees -/

theorem Text.ofString_append (a b : String) :
    Text.ofString (a ++ b) = Text.ofString a ++ Text.ofString b := by
  unfold Text.ofString
  rw [String.toList_append, Utf8.encode_append]

/-- Trees are printed like their source forms with blanks between them. -/
theorem join_render (ns : List Node) :
    Text.join " " (ns.map fun n => Text.ofString n.render) = Text.ofString (Node.renderAll ns) := by
  induction ns with
  | nil => rfl
  | cons n ns ih =>
    cases ns with
    | nil => simp [Text.join, Node.renderAll]
    | cons m more =>
      have hjoin : Text.join " " ((n :: m :: more).map fun n => Text.ofString n.render) =
          Text.ofString n.render ++ (Text.ofString " " ++
            Text.join " " ((m :: more).map fun n => Text.ofString n.render)) := by
        simp [Text.join]
      rw [hjoin, ih, Node.renderAll, Text.ofString_append, Text.ofString_append, List.append_assoc]

theorem Text.IsAtom.proper {t : Text} (h : t.IsAtom) :
    ∃ name, t = Text.ofString name ∧ (TokenKind.atom name).Proper := by
  obtain ⟨cs, name, loc, hmem, ht⟩ := h
  exact ⟨name, ht, proper_of_mem_tokenize cs _ hmem⟩

theorem not_mem_decode_of_valid {s : Text} (hvalid : Utf8.isValid s = true) (h : 0x22 ∉ s) :
    '"' ∉ Utf8.decode s := by
  intro hmem
  rw [← Utf8.encode_decode hvalid] at h
  exact h (List.mem_flatMap.mpr ⟨'"', hmem, List.mem_singleton.mpr rfl⟩)

namespace Node

theorem render_withQuote {n : Node} (h : n.Readable) (hquoted : n.isQuoted = false) :
    (n.withQuote true).render = "'" ++ n.render := by
  unfold isQuoted at hquoted
  cases n with
  | unit | progn => cases h
  | _ =>
    simp only [info] at hquoted
    simp only [withQuote, render, quoteMark, hquoted, if_true, Bool.false_eq_true, if_false,
      String.empty_append, String.append_assoc]

theorem ofNode_withQuote {n : Node} (hquoted : n.isQuoted = false) :
    Value.ofNode (n.withQuote true) = .quote (.ofNode n) false := by
  cases n <;> simp_all [withQuote, isQuoted, info, Value.ofNode, Value.quoteIf]

end Node

namespace Value

/-- The value is printed like this tree, which can be read and has the value. -/
structure PrintsAs (v : Value) (n : Node) : Prop where
  readable : n.Readable
  quoted : n.isQuoted = v.isQuote
  sexp : v.sexp = Text.ofString n.render
  value : (ofNode n).Matches v.withoutMarks

theorem exists_nodes {items : List Value} (h : ∀ v ∈ items, ∃ n, v.PrintsAs n) :
    ∃ ns, Node.AllReadable ns ∧ sexps items = (ns.map fun n => Text.ofString n.render) ∧
      List.Forall₂ Value.Matches (ofNodes ns) (withoutMarksAll items) := by
  induction items with
  | nil => exact ⟨[], trivial, rfl, .nil⟩
  | cons v items ih =>
    obtain ⟨n, hn⟩ := h v List.mem_cons_self
    obtain ⟨ns, hreadable, hsexps, hvalues⟩ := ih fun w hw => h w (List.mem_cons_of_mem v hw)
    refine ⟨n :: ns, ⟨hn.readable, hreadable⟩, ?_, .cons hn.value hvalues⟩
    rw [sexps, List.map_cons, hn.sexp, hsexps]

/-- **A legible value is printed like a tree that can be read, and has the value.** -/
theorem Legible.exists_node {v : Value} (h : v.Legible) : ∃ n, v.PrintsAs n := by
  induction h with
  | @number x hx =>
    refine ⟨.number ⟨Loc.unknown, false⟩ x, hx, rfl, ?_, .number x⟩
    simp [sexp, Node.render, Node.quoteMark]
  | bool b =>
    refine ⟨.bool ⟨Loc.unknown, false⟩ b, trivial, rfl, ?_, .bool b⟩
    cases b <;> rfl
  | @string s hvalid hquote =>
    have hback : Text.ofString (String.ofList (Utf8.decode s)) = s := by
      unfold Text.ofString
      rw [String.toList_ofList, Utf8.encode_decode hvalid]
    refine ⟨.string ⟨Loc.unknown, false⟩ (String.ofList (Utf8.decode s)), ?_, rfl, ?_, ?_⟩
    · show '"' ∉ (String.ofList (Utf8.decode s)).toList
      rw [String.toList_ofList]
      exact not_mem_decode_of_valid hvalid hquote
    · simp [sexp, Node.render, Node.quoteMark, Text.ofString_append, hback]
    · show (Value.string (Text.ofString (String.ofList (Utf8.decode s)))).Matches _
      rw [hback]
      exact .string s
  | @atom name loc hname =>
    obtain ⟨text, rfl, hproper⟩ := hname.proper
    refine ⟨.atom ⟨Loc.unknown, false⟩ text, hproper, rfl, ?_, .atom _ trivial⟩
    simp [sexp, Node.render, Node.quoteMark]
  | @list items loc _ ih =>
    obtain ⟨ns, hreadable, hsexps, hvalues⟩ := exists_nodes ih
    refine ⟨.list ⟨Loc.unknown, false⟩ ns, hreadable, rfl, ?_, .list hvalues trivial⟩
    rw [sexp, hsexps, join_render]
    simp [Node.render, Node.quoteMark, Text.ofString_append]
  | @quote v applied _ hquote ih =>
    obtain ⟨n, hn⟩ := ih
    have hquoted : n.isQuoted = false := hn.quoted.trans hquote
    refine ⟨n.withQuote true, Node.readable_withQuote hn.readable true, ?_, ?_, ?_⟩
    · cases n <;> rfl
    · rw [Node.render_withQuote hn.readable hquoted, Text.ofString_append, sexp, hn.sexp]
    · rw [Node.ofNode_withQuote hquoted]
      exact .quote false hn.value

end Value

/-- **The source form of a tree that can be read is one expression**, which is the tree but for
    places. -/
theorem parse_of_readable {n : Node} (h : n.Readable) :
    ∃ m, parse (Text.ofString n.render) = .ok (programOf [m]) ∧ m.unlocated = n.unlocated := by
  obtain ⟨p, loc, htree, hreads⟩ := relexes_render h [] Loc.start (by intro c hc; cases hc)
  have htokens : tokenize (Utf8.decode (Text.ofString n.render)) = (Phrase.yield [p], none) := by
    rw [Utf8.decode_ofString, tokenize_eq, Phrase.yield_singleton]
    rw [List.append_nil] at hreads
    unfold Cursor.Reads at hreads
    rw [Cursor.tokens_nil, List.append_nil] at hreads
    exact hreads
  exact ⟨p.tree, parse_eq_ok_iff.mpr ⟨[p], htokens, rfl⟩, htree⟩

theorem Value.Legible.read {v : Value} (h : v.Legible) :
    ∃ n, parse v.sexp = .ok (programOf [n]) ∧ (ofNode n).Matches v.withoutMarks := by
  obtain ⟨n, hn⟩ := h.exists_node
  obtain ⟨m, hm, hsame⟩ := parse_of_readable hn.readable
  rw [← hn.sexp] at hm
  exact ⟨m, hm, Matches.trans _ (matches_ofNode hsame) hn.value⟩

/-! ## 3. Functions -/

/-- Atoms with these names. -/
def atoms (names : List Text) : List Value := names.map (.atom · Loc.unknown)

@[simp] theorem sexps_atoms (names : List Text) : Value.sexps (atoms names) = names := by
  induction names with
  | nil => rfl
  | cons name names ih => exact congrArg (name :: ·) ih

@[simp] theorem withoutMarksAll_atoms (names : List Text) :
    Value.withoutMarksAll (atoms names) = atoms names := by
  induction names with
  | nil => rfl
  | cons name names ih => exact congrArg (Value.atom name Loc.unknown :: ·) ih

/-- The call of `lambda` that makes a function. -/
def lambdaCall (params : List Text) (body : List Value) : Value :=
  .list (.atom "lambda" Loc.unknown :: .list (atoms params) Loc.unknown :: body) Loc.unknown

/-- Texts after a first one are joined by a blank before each. -/
theorem join_cons (t : Text) (ts : List Text) :
    Text.join " " (t :: ts) = t ++ ts.flatMap (0x20 :: ·) := by
  induction ts generalizing t with
  | nil => simp [Text.join]
  | cons u ts ih =>
    have hjoin : Text.join " " (t :: u :: ts) =
        t ++ (Text.ofString " " ++ Text.join " " (u :: ts)) := by
      simp [Text.join]
    rw [hjoin, ih, List.flatMap_cons]
    rfl

/-- **A function without a name is printed as the call that makes it.** -/
theorem sexp_closure (params : Option (List Text)) (body : List Value) (home : FrameId) :
    (Value.closure [] params body home).sexp = (lambdaCall (params.getD []) body).sexp := by
  have hhead : Value.closureHead [] =
      Text.ofString "(" ++ (Text.ofString "lambda" ++ 0x20 :: Text.ofString "(") := by decide
  rw [lambdaCall, Value.sexp, Value.sexp, Value.sexps, Value.sexps, Value.sexp, Value.sexp,
    sexps_atoms, join_cons, List.flatMap_cons, hhead]
  simp [List.append_assoc]

theorem isAtom_lambda : Text.IsAtom "lambda" :=
  ⟨"lambda".toList, "lambda", Loc.start, by decide +kernel, rfl⟩

theorem legible_lambdaCall {params : List Text} {body : List Value}
    (hparams : ∀ name ∈ params, name.IsAtom) (hbody : ∀ v ∈ body, v.Legible) :
    (lambdaCall params body).Legible := by
  have hnames : ∀ v ∈ atoms params, v.Legible := by
    intro v hv
    obtain ⟨name, hname, rfl⟩ := List.mem_map.mp hv
    exact .atom Loc.unknown (hparams name hname)
  refine .list Loc.unknown fun v hv => ?_
  rcases List.mem_cons.mp hv with rfl | hv
  · exact .atom Loc.unknown isAtom_lambda
  · rcases List.mem_cons.mp hv with rfl | hv
    · exact .list Loc.unknown hnames
    · exact hbody v hv

theorem withoutMarks_lambdaCall (params : List Text) (body : List Value) :
    (lambdaCall params body).withoutMarks = lambdaCall params (Value.withoutMarksAll body) := by
  simp [lambdaCall, Value.withoutMarks, Value.withoutMarksAll]

theorem paramNames_of_matches (op : Text) {params : List Text} {ps : List Value}
    (h : List.Forall₂ Value.Matches ps (atoms params)) : paramNames op ps = .ok params := by
  induction params generalizing ps with
  | nil =>
    cases h
    rfl
  | cons name params ih =>
    cases h with
    | cons hv hvs =>
      cases hv
      rw [paramNames, ih hvs]

theorem bare_of_unmarked {v : Value} (h : v.unmarked = true) : bare v = v := by
  unfold bare
  split
  · cases h
  · rfl

theorem eq_of_matches_lambdaCall {call : Value} {params : List Text} {body : List Value}
    (h : call.Matches (lambdaCall params body)) : ∃ (l l₁ l₂ : Loc) (ps body' : List Value),
      call = .list (.atom "lambda" l₁ :: .list ps l₂ :: body') l ∧
        List.Forall₂ Value.Matches ps (atoms params) ∧ List.Forall₂ Value.Matches body' body := by
  cases h with
  | list hitems _ =>
    cases hitems with
    | cons hhead hargs =>
      cases hargs with
      | cons hps hbody =>
        cases hhead
        cases hps with
        | list hnames _ => exact ⟨_, _, _, _, _, rfl, hnames, hbody⟩

theorem lambda_of_unmarked (home : FrameId) (op : Text) {ps body : List Value} {params : List Text}
    (hparams : paramNames op ps = .ok params) (hbody : Value.unmarkedAll body = true) (l : Loc)
    (s : Session) :
    lambda home op (.list ps l :: body) s = .ok (.closure [] (some params) body home) s := by
  have hbare : body.map bare = body :=
    (List.map_congr_left fun v hv => bare_of_unmarked (Value.unmarkedAll_iff.mp hbody v hv)).trans
      (List.map_id body)
  have hgiven : SmallLisp.params op (bare (.list ps l)) = .ok (some params) := by
    show (paramNames op ps).map some = _
    rw [hparams]
    rfl
  show (EvalM.ofExcept (SmallLisp.params op (bare (.list ps l))) >>= fun names =>
    (pure (.closure [] names (body.map bare) home) : EvalM Value)) s = _
  rw [hgiven, hbare]
  rfl

/-- The call of `lambda`, read at whatever places, makes the function. -/
theorem eval_lambdaCall {s : Session} {home : FrameId} (hroom : s.HasRoom)
    (hname : s.store.get? home "lambda" = some (.native (.primitive .lambda))) {call : Value}
    (hmarks : call.unmarked = true) {params : List Text} {body : List Value}
    (h : call.Matches (lambdaCall params body)) (n : Nat) : ∃ body' t,
      (ofFuel (n + 2)).eval home call s = .ok (.closure [] (some params) body' home) t ∧
        List.Forall₂ Value.Matches body' body ∧ t.store = s.store := by
  obtain ⟨l, l₁, l₂, ps, body', rfl, hnames, hbody⟩ := eq_of_matches_lambdaCall h
  have hunmarked : Value.unmarkedAll body' = true := by
    simp only [Value.unmarked, Value.unmarkedAll, Bool.and_eq_true] at hmarks
    exact hmarks.2.2
  have hrun (s' : Session) (_ : s.Inside s') : ∃ t,
      (ofFuel (n + 1)).runNative home (.primitive .lambda) (.list ps l₂ :: body') s' =
        .ok (.closure [] (some params) body' home) t ∧ t.store = s'.store :=
    ⟨s', lambda_of_unmarked home _ (paramNames_of_matches _ hnames) hunmarked l₂ s', rfl⟩
  obtain ⟨t, ht, hstore⟩ := eval_native hname hroom hrun l₁ l
  exact ⟨body', t, ht, hbody, hstore⟩

/-! ## 4. The result -/

/-- **Printed values read back.** A legible value is printed as a text with one expression, and the
    value of that is the one that was printed, but for places; marks of `apply` are not printed, so
    they are gone if there were any.

    A function that `lambda` made, whose parameters are names of atoms and whose body consists of
    legible forms, is printed as a program. Evaluated in the frame that the function was made in, if
    `lambda` means there what it means at first and one more application may be nested (as it may
    whenever none is in progress), it gives a function with the same parameters and, but for places,
    the same body. -/
theorem printed_read_back :
    (∀ v : Value, v.Legible → ∃ n, parse v.sexp = .ok (programOf [n]) ∧
      (Value.ofNode n).Matches v.withoutMarks ∧
        (v.unmarked = true → (Value.ofNode n).Matches v)) ∧
    ∀ (params : Option (List Text)) (body : List Value) (home : FrameId),
      (∀ name ∈ params.getD [], name.IsAtom) → (∀ v ∈ body, v.Legible) →
      ∃ n, parse (Value.closure [] params body home).sexp = .ok n ∧
        ∀ s : Session, s.HasRoom →
          s.store.get? home "lambda" = some (.native (.primitive .lambda)) →
          ∃ body' t, s.Answers home (.ofNode n)
              (.ok (.closure [] (some (params.getD [])) body' home) t) ∧
            List.Forall₂ Value.Matches body' (Value.withoutMarksAll body) ∧
            (Value.unmarkedAll body = true → List.Forall₂ Value.Matches body' body) ∧
            t.store = s.store := by
  refine ⟨fun v hv => ?_, fun params body home hparams hbody => ?_⟩
  · obtain ⟨n, hn, hvalue⟩ := hv.read
    refine ⟨n, hn, hvalue, fun hunmarked => ?_⟩
    rwa [Value.withoutMarks_of_unmarked hunmarked] at hvalue
  · obtain ⟨n, hn, hvalue⟩ := (legible_lambdaCall hparams hbody).read
    rw [withoutMarks_lambdaCall] at hvalue
    refine ⟨programOf [n], by rw [sexp_closure, hn], fun s hroom hname => ?_⟩
    obtain ⟨body', t, ht, hbody', hstore⟩ :=
      eval_lambdaCall hroom hname (Value.unmarked_ofNode n) hvalue 0
    have hprogram : (ofFuel 3).eval home (.ofNode (programOf [n])) s = _ := ht
    refine ⟨body', t, answers_of_fuel hprogram trivial, hbody', fun hunmarked => ?_, hstore⟩
    rwa [Value.withoutMarksAll_of_unmarked hunmarked] at hbody'

/-- A list with a quoted list, a negative zero, a string, an empty list and a truth value. -/
def keepsake : Value :=
  .list [.quote (.list [.atom "a" Loc.unknown, .number (-0.0)] Loc.unknown) false, .string "x y",
    .list [] Loc.start, .bool true] Loc.unknown

theorem isAtom_a : Text.IsAtom "a" := ⟨['a'], "a", Loc.start, by decide +kernel, rfl⟩

theorem legible_keepsake : keepsake.Legible := by
  have hquoted : ∀ v ∈ [Value.atom "a" Loc.unknown, .number (-0.0)], v.Legible := by
    rintro v (_ | ⟨_, _ | ⟨_, hv⟩⟩)
    · exact .atom Loc.unknown isAtom_a
    · exact .number (by decide +kernel)
    · cases hv
  refine .list Loc.unknown fun v hv => ?_
  simp only [List.mem_cons, List.not_mem_nil, or_false] at hv
  rcases hv with rfl | rfl | rfl | rfl
  · exact .quote false (.list Loc.unknown hquoted) rfl
  · exact .string (by decide +kernel) (by decide +kernel)
  · exact .list Loc.start fun _ h => by cases h
  · exact .bool true

theorem printed_read_back_keepsake : keepsake.Legible ∧
    (∃ n, parse keepsake.sexp = .ok (programOf [n]) ∧ (Value.ofNode n).Matches keepsake) ∧
    ∃ n, parse (Value.closure [] (some ["a"]) [keepsake] 0).sexp = .ok n ∧
      ∃ body t, (Session.fresh "0.0.0").Answers 0 (.ofNode n)
        (.ok (.closure [] (some ["a"]) body 0) t) ∧ List.Forall₂ Value.Matches body [keepsake] := by
  have hparams : ∀ name ∈ (some [Text.ofString "a"]).getD [], name.IsAtom := by
    rintro name (_ | ⟨_, hname⟩)
    · exact isAtom_a
    · cases hname
  have hbody : ∀ v ∈ [keepsake], v.Legible := by
    rintro v (_ | ⟨_, hv⟩)
    · exact legible_keepsake
    · cases hv
  obtain ⟨n, hn, -, hvalue⟩ := printed_read_back.1 keepsake legible_keepsake
  obtain ⟨m, hm, heval⟩ := printed_read_back.2 (some ["a"]) [keepsake] 0 hparams hbody
  obtain ⟨body, t, ht, -, hsame, -⟩ :=
    heval (Session.fresh "0.0.0") (.inr (by decide)) (by rfl)
  exact ⟨legible_keepsake, ⟨n, hn, hvalue rfl⟩, m, hm, body, t, ht, hsame rfl⟩

example : (Value.closure [] (some ["a"]) [keepsake] 0).sexp =
    "(lambda (a) ('(a -0) \"x y\" () #t))" := by decide +kernel

end SmallLisp
