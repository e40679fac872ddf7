import SmallLisp.Proofs.Eval.Places
import SmallLisp.Proofs.Node.Lines
import SmallLisp.Proofs.Node.RoundTrip
import SmallLisp.Proofs.Repl.Lines
import SmallLisp.Proofs.Text.Utf8
import SmallLisp.Repl.Basic

/-!
# A program typed in line by line

An interactive session takes a program line by line and evaluates it in pieces, as soon as the lines
read so far make up a whole. Loading evaluates the program at once. Both do the same
(`typed_as_loaded`): the pieces are the expressions of the program in order, the places of which are
counted from the start of each piece; each of them is evaluated in a session that is equal to the
one in which it is evaluated on loading, but for places and for what the interactive session shows
in between.

What must not be in the program: a line that is taken for a command, a quote at the end of a line,
and a last line that is never read (`Lines.LosesLast`).
-/

namespace SmallLisp

open Evaluator

/-! ## 1. The same expressions at other places -/

namespace Node

mutual

theorem unlocated_down (n : Nat) : ∀ m : Node, (m.down n).unlocated = m.unlocated
  | unit _ | atom _ _ | string _ _ | number _ _ | bool _ _ => rfl
  | list i items => congrArg (list (unlocatedInfo i)) (unlocatedAll_down n items)
  | progn i items => congrArg (progn (unlocatedInfo i)) (unlocatedAll_down n items)

theorem unlocatedAll_down (n : Nat) : ∀ ms : List Node,
    unlocatedAll (downAll n ms) = unlocatedAll ms
  | [] => rfl
  | m :: ms => by
    rw [downAll, unlocatedAll, unlocated_down n m, unlocatedAll_down n ms, unlocatedAll]

end

theorem unlocatedAll_eq_map (ms : List Node) : unlocatedAll ms = ms.map unlocated := by
  induction ms with
  | nil => rfl
  | cons m ms ih => rw [unlocatedAll, List.map_cons, ih]

theorem unlocatedAll_append (ms ns : List Node) :
    unlocatedAll (ms ++ ns) = unlocatedAll ms ++ unlocatedAll ns := by
  rw [unlocatedAll_eq_map, List.map_append, ← unlocatedAll_eq_map, ← unlocatedAll_eq_map]

theorem unlocatedAll_eq_append {ms as bs : List Node}
    (h : unlocatedAll ms = unlocatedAll (as ++ bs)) :
    ∃ as' bs', ms = as' ++ bs' ∧ unlocatedAll as' = unlocatedAll as ∧
      unlocatedAll bs' = unlocatedAll bs := by
  rw [unlocatedAll_append, unlocatedAll_eq_map] at h
  obtain ⟨as', bs', hms, has, hbs⟩ := List.map_eq_append_iff.mp h
  exact ⟨as', bs', hms, by rw [unlocatedAll_eq_map, has], by rw [unlocatedAll_eq_map, hbs]⟩

end Node

namespace Value

theorem ofNodes_append (ms ns : List Node) : ofNodes (ms ++ ns) = ofNodes ms ++ ofNodes ns := by
  induction ms with
  | nil => rfl
  | cons m ms ih => rw [List.cons_append, ofNodes, ih, ofNodes, List.cons_append]

theorem matches_quoteIf {i j : NodeInfo} (h : Node.unlocatedInfo i = Node.unlocatedInfo j)
    {v v' : Value} (hv : v.Matches v') : (quoteIf i v).Matches (quoteIf j v') := by
  have hquoted : i.quoted = j.quoted := (NodeInfo.mk.inj h).2
  unfold quoteIf
  rw [hquoted]
  split
  · exact .quote false hv
  · exact hv

mutual

/-- Trees that are equal but for places have values that are. -/
theorem matches_ofNode {m m' : Node} (h : m.unlocated = m'.unlocated) :
    (ofNode m).Matches (ofNode m') := by
  match m with
  | .unit i =>
    cases m' with
    | unit j => exact matches_quoteIf (Node.unit.inj h) .unit
    | _ => cases h
  | .atom i name =>
    cases m' with
    | atom j name' =>
      obtain ⟨hinfo, rfl⟩ := Node.atom.inj h
      exact matches_quoteIf hinfo (.atom name trivial)
    | _ => cases h
  | .string i text =>
    cases m' with
    | string j text' =>
      obtain ⟨hinfo, rfl⟩ := Node.string.inj h
      exact matches_quoteIf hinfo (.string text)
    | _ => cases h
  | .number i x =>
    cases m' with
    | number j y =>
      obtain ⟨hinfo, rfl⟩ := Node.number.inj h
      exact matches_quoteIf hinfo (.number x)
    | _ => cases h
  | .bool i b =>
    cases m' with
    | bool j b' =>
      obtain ⟨hinfo, rfl⟩ := Node.bool.inj h
      exact matches_quoteIf hinfo (.bool b)
    | _ => cases h
  | .list i items =>
    cases m' with
    | list j items' =>
      obtain ⟨hinfo, hitems⟩ := Node.list.inj h
      exact matches_quoteIf hinfo (.list (matches_ofNodes hitems) trivial)
    | _ => cases h
  | .progn i items =>
    cases m' with
    | progn j items' =>
      obtain ⟨hinfo, hitems⟩ := Node.progn.inj h
      exact matches_quoteIf hinfo (.sequence (matches_ofNodes hitems))
    | _ => cases h

theorem matches_ofNodes {ms ms' : List Node}
    (h : Node.unlocatedAll ms = Node.unlocatedAll ms') :
    List.Forall₂ Value.Matches (ofNodes ms) (ofNodes ms') := by
  match ms, ms' with
  | [], [] => exact .nil
  | m :: ms, m' :: ms' =>
    obtain ⟨hm, hms⟩ := List.cons.inj h
    exact .cons (matches_ofNode hm) (matches_ofNodes hms)

end

end Value

/-! ## 2. Sequences in parts -/

section Sequence

variable {barred : Native → Bool} {n : Nat} {env : FrameId}

theorem evalSequence_of_append {ev : Evaluator} {s t : Session} {v : Value}
    (forms forms' : List Value) (h : ev.evalSequence env (forms ++ forms') s = .ok v t) :
    ∃ u w w', ev.evalSequence env forms s = .ok w u ∧ ev.evalSequence env forms' u = .ok w' t := by
  induction forms generalizing s with
  | nil => exact ⟨s, .unit, v, rfl, h⟩
  | cons form forms ih =>
    cases forms with
    | nil =>
      cases forms' with
      | nil => exact ⟨t, v, .unit, h, rfl⟩
      | cons next more =>
        obtain ⟨w, u, hform, hmore⟩ := ok_of_bind h
        exact ⟨u, w, v, hform, hmore⟩
    | cons next more =>
      obtain ⟨_, u, hform, hmore⟩ := ok_of_bind h
      obtain ⟨u', w, w', hfront, hback⟩ := ih hmore
      exact ⟨u', w, w', (bind_of_ok hform).trans hfront, hback⟩

/-- A sequence that is evaluated to its end is evaluated in parts. -/
theorem eval_sequence_of_append {s t : Session} {v : Value} {forms forms' : List Value}
    (h : (barring barred n).eval env (.sequence (forms ++ forms')) s = .ok v t) :
    ∃ u w w', (barring barred n).eval env (.sequence forms) s = .ok w u ∧
      (barring barred n).eval env (.sequence forms') u = .ok w' t := by
  cases n with
  | zero => cases h
  | succ n => exact evalSequence_of_append forms forms' h

/-- Evaluation keeps the root frame. -/
theorem root_of_eval {s t : Session} {form v : Value}
    (h : (barring barred n).eval env form s = .ok v t) : t.root = s.root := by
  have heval : Routine True env fun ev => ev.eval env form := .eval form
  have halike := heval.alike n s
  unfold EvalM.after at halike
  rw [eval_of_barring h trivial] at halike
  exact halike.root

end Sequence

/-! ## 3. Sessions side by side -/

/-- The sessions are equal but for places and for what they have put out. -/
def Session.Beside (s s' : Session) : Prop :=
  (Correspondence.placing s.output s'.output).Sessions () s s'

namespace Session.Beside

/-- What the second session has put out does not matter. -/
theorem of_sessions {past past' : List Output} {s s' : Session}
    (h : (Correspondence.placing past past').Sessions () s s') (out : List Output) :
    s.Beside { s' with output := out } :=
  ⟨h.version, h.store, h.root, h.limit, h.trace, h.verbose, h.printer, h.depth, h.observers,
    ⟨⟨[], rfl, rfl⟩, h.report.started, h.report.finished, h.report.journal⟩⟩

theorem refl (s : Session) : s.Beside s :=
  ⟨rfl, .refl _, rfl, rfl, rfl, rfl, rfl, rfl, rfl, ⟨⟨[], rfl, rfl⟩, rfl, rfl, rfl⟩⟩

theorem print {s s' : Session} (h : s.Beside s') (text : Text) : s.Beside (s'.print text) :=
  of_sessions h _

/-- **Side by side the same happens**, and the same is put out. -/
theorem eval {s s' t : Session} (h : s.Beside s') {form form' v : Value}
    (hform : form.Matches form') {n : Nat}
    (hrun : (barring Native.dumps n).eval s.root form s = .ok v t) :
    ∃ v' t' out, (ofFuel n).eval s'.root form' s' = .ok v' t' ∧ t.Beside t' ∧
      t.output = out ++ s.output ∧ t'.output = out ++ s'.output := by
  let c := Correspondence.placing s.output s'.output
  have hagree := (c.level n).eval h.root hform h
  have hrun' : (barring c.barred n).eval s.root form s = .ok v t := hrun
  rw [hrun'] at hagree
  generalize hother : (barring c.barred n).eval s'.root form' s' = r' at hagree
  cases hagree with
  | @ok _ _ v' _ t' _ _ ht =>
    obtain ⟨out, hout, hout'⟩ := ht.report.output
    exact ⟨v', t', out, eval_of_barring hother trivial, of_sessions ht _, hout, hout'⟩

end Session.Beside

/-! ## 4. Turns -/

/-- One line in an interactive session: the session in which it is read, and what it asks for. -/
structure Turn where
  session : Session
  request : Request

namespace Turn

/-- The expressions that the line has evaluated. -/
def items (turn : Turn) : List Node :=
  match turn.request with
  | .program n => n.items
  | _ => []

/-- What is put out by the program that the line has evaluated. -/
def output (turn : Turn) : List Output :=
  match turn.request with
  | .program n =>
    (Answer.session (Session.evalNode Session.ampleFuel n turn.session)).outputSince turn.session
  | _ => []

/-- The line goes on with a program, or it completes one that has a value: no error is reported, and
    no command performed. -/
def Quiet (turn : Turn) : Prop :=
  match turn.request with
  | .unfinished _ => True
  | .program n => Answer.isOk (Session.evalNode Session.ampleFuel n turn.session) = true
  | .command _ | .faulty _ => False

end Turn

namespace Repl

/-- The next line of a session as a turn. -/
def turn (r : Repl) (line : Text) : Turn := ⟨r.ask.session, Request.ofLine r.pending line⟩

/-- The turns of a session that takes lines until they end or one of them ends the session. -/
def turns (r : Repl) : List Text → List Turn
  | [] => []
  | line :: lines =>
    r.turn line :: match r.ask.feed line with
      | .ok r => r.turns lines
      | .error _ => []

/-- Taking lines does what loading does to expressions, from session `s` to session `t`. -/
structure Loads (r : Repl) (lines : List Text) (items : List Node) (s t : Session) : Prop where
  quiet : ∀ turn ∈ r.turns lines, turn.Quiet
  /-- The expressions are evaluated in order, and each of them once. -/
  items : Node.unlocatedAll ((r.turns lines).flatMap Turn.items) = Node.unlocatedAll items
  /-- The programs of the turns put out what loading puts out. -/
  output : t.output = ((r.turns lines).flatMap Turn.output).reverse ++ s.output
  pending : (r.run lines).pending = none
  sessions : t.Beside (r.run lines).session

variable {r : Repl} {line : Text} {lines : List Text} {s t : Session}

/-- The session after a line that goes on with a program. -/
def afterUnfinished (r : Repl) (line text : Text) : Repl :=
  { r.ask with pending := some text, history := r.history.record line }

/-- The session after a line that completes a program. -/
def afterProgram (r : Repl) (line : Text) (n : Node) : Repl :=
  { r.ask with
    pending := none, history := r.history.record line, session := evaluate r.ask.session n }

theorem feed_unfinished {text : Text} (h : Request.ofLine r.pending line = .unfinished text) :
    r.ask.feed line = .ok (r.afterUnfinished line text) := by
  unfold feed
  dsimp only
  rw [show r.ask.pending = r.pending from rfl, h]
  rfl

theorem feed_program {n : Node} (h : Request.ofLine r.pending line = .program n) :
    r.ask.feed line = .ok (r.afterProgram line n) := by
  unfold feed
  dsimp only
  rw [show r.ask.pending = r.pending from rfl, h]
  rfl

/-- One turn, and then the others. -/
theorem Loads.cons {r' : Repl} {items : List Node} {u : Session}
    (hfeed : r.ask.feed line = .ok r') (hquiet : (r.turn line).Quiet)
    (hout : u.output = (r.turn line).output.reverse ++ s.output)
    (hmore : r'.Loads lines items u t) :
    r.Loads (line :: lines) ((r.turn line).items ++ items) s t := by
  have hturns : r.turns (line :: lines) = r.turn line :: r'.turns lines := by rw [turns, hfeed]
  have hrun : r.run (line :: lines) = r'.run lines := by rw [run, hfeed]
  refine ⟨?_, ?_, ?_, ?_, ?_⟩
  · rw [hturns]
    exact List.forall_mem_cons.mpr ⟨hquiet, hmore.quiet⟩
  · rw [hturns, List.flatMap_cons, Node.unlocatedAll_append, hmore.items,
      ← Node.unlocatedAll_append]
  · rw [hturns, List.flatMap_cons, List.reverse_append, hmore.output, hout, List.append_assoc]
  · rw [hrun]
    exact hmore.pending
  · rw [hrun]
    exact hmore.sessions

theorem Loads.unfinished {items : List Node} {text : Text}
    (h : Request.ofLine r.pending line = .unfinished text)
    (hmore : (r.afterUnfinished line text).Loads lines items s t) :
    r.Loads (line :: lines) items s t := by
  have hturn : r.turn line = ⟨r.ask.session, .unfinished text⟩ := by rw [turn, h]
  have hloads := hmore.cons (s := s) (feed_unfinished h)
  rw [hturn] at hloads
  exact hloads trivial rfl

theorem Loads.program {items items' : List Node} {u u' : Session} {v : Value} {out : List Output}
    (h : Request.ofLine r.pending line = .program (programOf items))
    (heval : Session.evalNode Session.ampleFuel (programOf items) r.ask.session = .ok v u')
    (hout : u.output = out ++ s.output) (hout' : u'.output = out ++ r.ask.session.output)
    (hmore : (r.afterProgram line (programOf items)).Loads lines items' u t) :
    r.Loads (line :: lines) (items ++ items') s t := by
  have hturn : r.turn line = ⟨r.ask.session, .program (programOf items)⟩ := by rw [turn, h]
  have hquiet : (r.turn line).Quiet := by
    rw [hturn]
    show Answer.isOk (Session.evalNode _ _ _) = true
    rw [heval]
    rfl
  have hput : (r.turn line).output = out.reverse := by
    rw [hturn]
    show (Answer.session (Session.evalNode _ _ _)).outputSince _ = _
    rw [heval]
    exact Session.outputSince_of_append hout'
  have hput' : u.output = (r.turn line).output.reverse ++ s.output := by
    rw [hput, List.reverse_reverse, hout]
  have hloads := hmore.cons (feed_program h) hquiet hput'
  rw [hturn] at hloads
  exact hloads

/-- Showing a value makes no difference. -/
theorem beside_evaluate {u u' : Session} {n : Node} {v : Value} (h : u.Beside u')
    (heval : Session.evalNode Session.ampleFuel n s = .ok v u') : u.Beside (evaluate s n) := by
  unfold evaluate
  rw [heval]
  cases v with
  | unit => exact h
  | _ => exact h.print _

end Repl

/-! ## 5. Line after line -/

/-- The text up to a line: the line itself, after the text of an unfinished program. -/
def textWith (pending : Option Text) (line : Text) : Text :=
  match pending with
  | none => line
  | some text => text ++ 0x0A :: line

theorem Request.ofLine_eq {line : Text} (h : Command.isCommand line = false)
    (pending : Option Text) : Request.ofLine pending line = .ofText (textWith pending line) := by
  cases pending with
  | none =>
    show (if Command.isCommand line = true then _ else _) = _
    rw [h]
    rfl
  | some text =>
    show Request.ofText (text ++ [0x0A] ++ line) = _
    rw [List.append_assoc]
    rfl

theorem join_textWith (pending : Option Text) (line : Text) (lines : List Text) :
    Text.join [0x0A] (pending.toList ++ line :: lines) =
      Text.join [0x0A] (textWith pending line :: lines) := by
  cases pending with
  | none => rfl
  | some text =>
    show Text.join [0x0A] (text :: line :: lines) =
      Text.join [0x0A] ((text ++ 0x0A :: line) :: lines)
    rw [Lines.join_cons_cons]
    cases lines with
    | nil => rw [Lines.join_singleton, Lines.join_singleton]
    | cons next lines =>
      rw [Lines.join_cons_cons, Lines.join_cons_cons, List.append_assoc, List.cons_append]

theorem Request.ofText_of_ok {text : Text} {ns : List Node}
    (h : parseChars (Utf8.decode text) = .ok ns) :
    Request.ofText text = .program (programOf ns) := by
  unfold Request.ofText parse
  rw [h]

/-- A text that can be read, before more lines: the lines can be read as well, and their expressions
    come after those of the text. -/
theorem read_rest {text : Text} {lines : List Text} {as items : List Node}
    (htext : parseChars (Utf8.decode text) = .ok as)
    (hall : parseChars (Utf8.decode (Text.join [0x0A] (text :: lines))) = .ok items)
    (hattached : QuotesAttached (Utf8.decode (Text.join [0x0A] (text :: lines)))) :
    ∃ bs, parseChars (Utf8.decode (Text.join [0x0A] lines)) = .ok bs ∧
      QuotesAttached (Utf8.decode (Text.join [0x0A] lines)) ∧
      Node.unlocatedAll items = Node.unlocatedAll (as ++ bs) := by
  cases lines with
  | nil =>
    rw [Lines.join_singleton, htext] at hall
    cases hall
    exact ⟨[], parseChars_nil, quotesAttached_nil, by rw [List.append_nil]⟩
  | cons line lines =>
    rw [Lines.join_cons_cons, Utf8.decode_newline] at hall hattached
    rw [parseChars_withLine htext] at hall
    cases hrest : parseChars (Utf8.decode (Text.join [0x0A] (line :: lines))) with
    | error e =>
      rw [hrest] at hall
      cases hall
    | ok bs =>
      rw [hrest] at hall
      cases hall
      refine ⟨bs, rfl, quotesAttached_of_withLine htext hattached, ?_⟩
      rw [Node.unlocatedAll_append, Node.unlocatedAll_append, ← Node.downAll_eq_map,
        Node.unlocatedAll_down]

/-- A text that can be read before more lines can be read alone, or it is unfinished. -/
theorem read_text {text : Text} {lines : List Text} {items : List Node}
    (hall : parseChars (Utf8.decode (Text.join [0x0A] (text :: lines))) = .ok items)
    (hattached : QuotesAttached (Utf8.decode (Text.join [0x0A] (text :: lines)))) :
    (∃ as, parseChars (Utf8.decode text) = .ok as) ∨
      (∀ ns, parseChars (Utf8.decode text) ≠ .ok ns) ∧ Request.ofText text = .unfinished text := by
  cases lines with
  | nil =>
    rw [Lines.join_singleton] at hall
    exact .inl ⟨items, hall⟩
  | cons line lines =>
    rw [Lines.join_cons_cons, Utf8.decode_newline] at hall hattached
    unfold Request.ofText parse
    rcases parseChars_of_withLine hall hattached with htext | ⟨l, htext⟩ | ⟨l, b, htext⟩
    · exact .inl htext
    · rw [htext]
      exact .inr ⟨fun _ h => (by cases h), rfl⟩
    · rw [htext]
      exact .inr ⟨fun _ h => (by cases h), rfl⟩

/-- **Lines do what loading their text does.** The induction is on the lines that are left. Loading
    has come to session `s` and to the expressions `items'`, which are those that the lines hold, at
    other places. -/
theorem loads_of_lines (lines : List Text) {r : Repl} {items items' : List Node}
    {s t : Session} {v : Value} (hcommands : ∀ line ∈ lines, Command.isCommand line = false)
    (hpending : ∀ text ∈ r.pending, ∀ ns, parseChars (Utf8.decode text) ≠ .ok ns)
    (hparse : parseChars (Utf8.decode (Text.join [0x0A] (r.pending.toList ++ lines))) = .ok items)
    (hattached : QuotesAttached (Utf8.decode (Text.join [0x0A] (r.pending.toList ++ lines))))
    (hsame : Node.unlocatedAll items' = Node.unlocatedAll items)
    (hrun : (barring Native.dumps Session.ampleFuel).eval s.root
      (.sequence (Value.ofNodes items')) s = .ok v t)
    (hs : s.Beside r.session) : r.Loads lines items s t := by
  induction lines generalizing r items items' s v with
  | nil =>
    cases hp : r.pending with
    | some text =>
      rw [hp] at hparse
      rw [show (some text).toList ++ [] = [text] from rfl, Lines.join_singleton] at hparse
      exact absurd hparse (hpending text hp items)
    | none =>
      rw [hp] at hparse
      cases parseChars_nil.symm.trans hparse
      obtain rfl : items' = [] := by
        cases items' with
        | nil => rfl
        | cons m ms => cases hsame
      cases hrun
      exact ⟨fun _ h => (by cases h), rfl, rfl, hp, hs.print _⟩
  | cons line lines ih =>
    have hline := hcommands line List.mem_cons_self
    have hlines := fun l hl => hcommands l (List.mem_cons_of_mem line hl)
    have hrequest := Request.ofLine_eq hline r.pending
    rw [join_textWith] at hparse hattached
    generalize textWith r.pending line = text at hrequest hparse hattached
    rcases read_text hparse hattached with ⟨as, has⟩ | ⟨hopen, hunfinished⟩
    · rw [Request.ofText_of_ok has] at hrequest
      obtain ⟨bs, hbs, hattached', hitems⟩ := read_rest has hparse hattached
      obtain ⟨as', bs', rfl, has', hbs'⟩ := Node.unlocatedAll_eq_append (hsame.trans hitems)
      rw [Value.ofNodes_append] at hrun
      obtain ⟨u, w, w', hfront, hback⟩ := eval_sequence_of_append hrun
      -- the first part is what the line completes, the second is left to the other lines
      have hask : s.Beside r.ask.session := hs.print _
      obtain ⟨v', u', out, heval, hu, hout, hout'⟩ :=
        hask.eval (.sequence (Value.matches_ofNodes has')) hfront
      rw [← root_of_eval hfront] at hback
      have hmore : (r.afterProgram line (programOf as)).Loads lines bs u t :=
        ih hlines (fun _ h => (by cases h)) hbs hattached' hbs' hback
          (Repl.beside_evaluate hu heval)
      have hloads := Repl.Loads.program hrequest heval hout hout' hmore
      exact { hloads with items := hloads.items.trans hitems.symm }
    · rw [hunfinished] at hrequest
      refine .unfinished hrequest (ih hlines ?_ hparse hattached hsame hrun (hs.print _))
      intro text' htext'
      cases htext'
      exact hopen

/-! ## 6. The result -/

/-- Runs source text in the root frame without the barred functions. -/
def Session.evalTextWithout (barred : Native → Bool) (fuel : Nat) (src : Text) : EvalM Value :=
  match parse src with
  | .ok n => do
    let s ← get
    (barring barred fuel).eval s.root (.ofNode n)
  | .error e => EvalM.fail (.read e)

/-- If running the text without some functions has an answer, it is the answer. -/
theorem evalText_of_without {barred : Native → Bool} {fuel : Nat} {src : Text} {s : Session}
    {r : Answer Value} (h : Session.evalTextWithout barred fuel src s = r) (hr : Finished r) :
    Session.evalText fuel src s = r := by
  unfold Session.evalTextWithout at h
  unfold Session.evalText
  cases hparse : parse src with
  | ok n =>
    rw [hparse] at h
    exact eval_of_barring h hr
  | error e =>
    rw [hparse] at h
    exact h

/-- What is read from a text is read from its lines. -/
theorem parseChars_lines {src : Text} {items : List Node}
    (h : parseChars (Utf8.decode src) = .ok items) (hattached : QuotesAttached (Utf8.decode src)) :
    parseChars (Utf8.decode (Text.join [0x0A] (Lines.cut src))) = .ok items ∧
      QuotesAttached (Utf8.decode (Text.join [0x0A] (Lines.cut src))) := by
  have hnewline : Utf8.decode (Text.join [0x0A] (Lines.cut src) ++ [0x0A]) =
      Utf8.decode (Text.join [0x0A] (Lines.cut src)) ++ ['\n'] := Utf8.decode_newline _ []
  rcases Lines.eq_join_cut src with hsrc | hsrc
  · rw [← hsrc]
    exact ⟨h, hattached⟩
  · rw [hsrc, hnewline] at h hattached
    exact ⟨parseChars_of_newline h, quotesAttached_of_newline hattached⟩

/-- **Typing a program in is loading it.** The source holds no carriage return, no line of it is
    taken for a command or is never read, and no line ends between a quote and what it quotes. If
    loading it into a session, whatever its settings, gives a value and does not use `dump`, then an
    interactive session that takes its lines, from a session like that one which may have put out
    something else, reports no error, evaluates the expressions of the program in order and each of
    them once, puts out the same, and comes to the same bindings in the same frames, all but for
    places. -/
theorem typed_as_loaded {src prompt : Text} {history : History} {past : List Output}
    {v : Value} {s t : Session} (hreturn : 0x0D ∉ src) (hlast : ¬ Lines.LosesLast src)
    (hcommands : ∀ line ∈ Lines.cut src, Command.isCommand line = false)
    (hattached : QuotesAttached (Utf8.decode src))
    (hload : Session.evalText Session.ampleFuel src s = .ok v t)
    (hdump : Session.evalTextWithout Native.dumps Session.ampleFuel src s =
      Session.evalText Session.ampleFuel src s) :
    ∃ items, parse src = .ok (programOf items) ∧
      (Repl.start { s with output := past } prompt history).Loads (Lines.plain src) items s t := by
  rw [hload] at hdump
  unfold Session.evalTextWithout parse at hdump
  cases hread : parseChars (Utf8.decode src) with
  | error e =>
    rw [hread] at hdump
    cases hdump
  | ok items =>
    rw [hread] at hdump
    obtain ⟨hparse, hattached'⟩ := parseChars_lines hread hattached
    refine ⟨items, by rw [parse, hread], ?_⟩
    rw [Lines.plain_eq hreturn, if_neg hlast]
    exact loads_of_lines _ hcommands (fun _ h => (by cases h)) hparse hattached' rfl hdump
      (.of_sessions (Session.Beside.refl s) past)

/-- A program with a comment, a list and a string on two lines each, and a last line that ends with
    the text. -/
def letterSource : Text := Text.ofString
  "(def you \"Ada\") ; 'you\n(println \"Dear\"\n  'friend you) \"x\ny\"\n(println you)"

/-- A fresh session with a low limit of nesting that is traced and counts calls. -/
def watchfulSession : Session := Session.configured "0.0.0" 9 true true

theorem letterSource_runs : Answer.isOk (Session.evalTextWithout Native.dumps Session.ampleFuel
    letterSource watchfulSession) = true := by decide +kernel

theorem typed_as_loaded_letter : ∃ v t items,
    Session.evalText Session.ampleFuel letterSource watchfulSession = .ok v t ∧
    t.printedText = "Dear friend Ada\nAda\n" ∧ parse letterSource = .ok (programOf items) ∧
    (Repl.start { watchfulSession with output := [] } "> " []).Loads
      (Lines.plain letterSource) items watchfulSession t := by
  obtain ⟨v, t, hwithout⟩ := Answer.exists_of_isOk letterSource_runs
  have hload := evalText_of_without hwithout trivial
  have hprinted : (Answer.session (Session.evalTextWithout Native.dumps Session.ampleFuel
    letterSource watchfulSession)).printedText = "Dear friend Ada\nAda\n" := by
      decide +kernel
  rw [hwithout] at hprinted
  have hattached : QuotesAttached (Utf8.decode letterSource) := by
    unfold QuotesAttached
    decide +kernel
  obtain ⟨items, hparse, hloads⟩ := typed_as_loaded (by decide +kernel) (by decide +kernel)
    (by decide +kernel) hattached hload (hwithout.trans hload.symm)
  exact ⟨v, t, items, hload, hprinted, hparse, hloads⟩

/-! ## 7. Lines that are not loaded -/

/-- The command that a line gives, if it is one. -/
def Turn.command? (turn : Turn) : Option Command :=
  match turn.request with
  | .command c => some c
  | _ => none

theorem Turn.not_quiet_of_command? {turn : Turn} {c : Command} (h : turn.command? = some c) :
    ¬ turn.Quiet := by
  rcases turn with ⟨session, request⟩
  cases request with
  | command c => exact not_false
  | _ => cases h

/-- **A program of one line that fills the buffer is not loaded**: the line is never read. -/
theorem not_loads_of_full {src : Text} {items : List Node} (hreturn : 0x0D ∉ src)
    (hmem : 0x0A ∉ src) (hfull : Lines.LosesLast src) (hne : items ≠ []) (r : Repl)
    (s t : Session) : ¬ r.Loads (Lines.plain src) items s t := by
  intro h
  have hitems := h.items
  rw [Lines.plain_of_full hreturn hmem hfull] at hitems
  obtain ⟨m, ms, rfl⟩ := List.exists_cons_of_ne_nil hne
  cases hitems

/-- A program with a name that starts with a point, after which no letter comes. -/
def dottedSource : Text := Text.ofString "(def .€ \"a\")\n.€\n"

/-- **Not every program can be typed in.** Its second line is a point and a character that is no
    letter, and is taken for a command all the same, since the first byte of that character would be
    a letter by itself. -/
theorem dotted_not_loaded :
    Answer.isOk (Session.evalTextWithout Native.dumps Session.ampleFuel dottedSource
      (Session.fresh "0.0.0")) = true ∧
    (Lines.plain dottedSource).map Utf8.decode = ["(def .€ \"a\")".toList, ['.', '€']] ∧
    ((Repl.start (Session.fresh "0.0.0") "> " []).turns (Lines.plain dottedSource)).map
      Turn.command? = [none, some (.unknown ".€")] ∧
    ∀ items t, ¬ (Repl.start (Session.fresh "0.0.0") "> " []).Loads (Lines.plain dottedSource)
      items (Session.fresh "0.0.0") t := by
  have hturns : ((Repl.start (Session.fresh "0.0.0") "> " []).turns
      (Lines.plain dottedSource)).map Turn.command? = [none, some (.unknown ".€")] := by
    decide +kernel
  refine ⟨by decide +kernel, by decide +kernel, hturns, fun items t h => ?_⟩
  have hcommand : some (Command.unknown ".€") ∈ ((Repl.start (Session.fresh "0.0.0") "> " []).turns
      (Lines.plain dottedSource)).map Turn.command? := by
    rw [hturns]
    simp
  obtain ⟨turn, hmem, hturn⟩ := List.mem_map.mp hcommand
  exact Turn.not_quiet_of_command? hturn (h.quiet turn hmem)

end SmallLisp
